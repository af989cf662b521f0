import LispMachine.AvlRotate

/-!
What an insertion writes, whatever the nodes hold: the links of the nodes that links lead to,
and the node that is put in.

Nothing is assumed of the shape of the tree, and the nodes may overlap.
-/

namespace LispMachine.AvlFrame

open LispMachine.Memory LispMachine.AvlCode LispMachine.AvlRepr LispMachine.Lib.BalTree

/-- Null, or a node. -/
def Node (X : ℕ → Prop) (p : ℕ) : Prop := p = 0 ∨ X p

/-- The words that hold links: the pointer to the root, and three of each node. -/
def LinkWord (tr : ℕ) (X : ℕ → Prop) (a : ℕ) : Prop := a = tr ∨ ∃ p, X p ∧ p ≤ a ∧ a < p + 3

/-- The links lead to nodes. -/
def Closed (m : Mem) (tr : ℕ) (X : ℕ → Prop) : Prop := ∀ a, LinkWord tr X a → Node X (m.ptr a)

/-- Links have been written only, and they lead to nodes. -/
structure Relinked (tr : ℕ) (X : ℕ → Prop) (m m' : Mem) : Prop where
  closed : Closed m' tr X
  same : ∀ a, ¬ LinkWord tr X a → m' a = m a

variable {m m' m'' : Mem} {tr : ℕ} {X : ℕ → Prop}

lemma linkWord_of {p a : ℕ} (hp : X p) (h1 : p ≤ a) (h2 : a < p + 3) : LinkWord tr X a :=
  .inr ⟨p, hp, h1, h2⟩

lemma linkWord_off {p : ℕ} (hp : X p) (d : Dir) : LinkWord tr X (p + off d) :=
  linkWord_of hp (by omega) (by have := off_le d; omega)

namespace Closed

lemma child (hc : Closed m tr X) {p : ℕ} (hp : X p) (d : Dir) : Node X (child m d p) :=
  hc _ (linkWord_off hp d)

lemma getParent (hc : Closed m tr X) {p : ℕ} (hp : Node X p) : Node X (getParent m p) := by
  unfold AvlCode.getParent
  split_ifs with h0
  · exact .inl rfl
  · have h1 : m p / 4 * 4 / 8 = m.ptr p := by unfold Mem.ptr; omega
    rw [h1]
    exact hc _ (linkWord_of (hp.resolve_left h0) le_rfl (by omega))

end Closed

namespace Relinked

lemma refl (hc : Closed m tr X) : Relinked tr X m m := ⟨hc, fun _ _ => rfl⟩

lemma trans (h : Relinked tr X m m') (h' : Relinked tr X m' m'') : Relinked tr X m m'' :=
  ⟨h'.closed, fun a ha => (h'.same a ha).trans (h.same a ha)⟩

lemma set (h : Relinked tr X m m') {a v : ℕ} (ha : LinkWord tr X a) (hv : Node X (v / 8)) :
    Relinked tr X m (m'.set a v) := by
  refine ⟨fun b hb => ?_, fun b hb => ?_⟩
  · unfold Mem.ptr
    rw [set_apply]
    split_ifs
    · exact hv
    · exact h.closed b hb
  · have hne : b ≠ a := fun heq => hb (heq.symm ▸ ha)
    exact (set_ne _ _ hne).trans (h.same b hb)

lemma setPtr (h : Relinked tr X m m') {a p : ℕ} (ha : LinkWord tr X a) (hp : Node X p) :
    Relinked tr X m (m'.setPtr a p) :=
  h.set ha (by rwa [Nat.mul_div_cancel_left _ (by omega)])

lemma setChild (h : Relinked tr X m m') {nd p : ℕ} (d : Dir) (hn : X nd) (hp : Node X p) :
    Relinked tr X m (setChild m' d nd p) :=
  h.setPtr (linkWord_off hn d) hp

lemma setTagged (h : Relinked tr X m m') {nd p t : ℕ} (hn : X nd) (hp : Node X p) (ht : t < 4) :
    Relinked tr X m (m'.set nd (tagged p t)) := by
  refine h.set (linkWord_of hn le_rfl (by omega)) ?_
  rw [tagged_eq ht]
  rwa [show (8 * p + t) / 8 = p by omega]

lemma setBalanceFactor (h : Relinked tr X m m') {nd : ℕ} (hn : Node X nd) (bf : ℤ) :
    Relinked tr X m (setBalanceFactor m' nd bf) := by
  unfold AvlCode.setBalanceFactor
  split_ifs with h0
  · exact h
  · have hw : LinkWord tr X nd := linkWord_of (hn.resolve_left h0) le_rfl (by omega)
    refine h.set hw ?_
    have hlt := revBalanceFactor_lt bf
    rw [show m' nd / 4 * 4 = 4 * (m' nd / 4) by omega, or_tag hlt]
    rw [show (4 * (m' nd / 4) + revBalanceFactor bf) / 8 = m'.ptr nd by unfold Mem.ptr; omega]
    exact h.closed _ hw

lemma adopt (h : Relinked tr X m m') {nd p : ℕ} (hn : Node X nd) (hp : Node X p) :
    Relinked tr X m (adopt m' nd p) := by
  unfold AvlCode.adopt
  split_ifs with h0
  · exact h
  · refine h.setTagged (hn.resolve_left h0) hp ?_
    rw [getBalanceFactor, if_neg h0, and_three]
    omega

/-- The link of the parent, or the pointer to the root, leads to the new node. -/
lemma relink (h : Relinked tr X m m') (old : ℕ) {p new : ℕ} (hp : Node X p) (hnew : Node X new) :
    Relinked tr X m (if p = 0 then m'.setPtr tr new else replaceChild m' p old new) := by
  split_ifs with h0
  · exact h.setPtr (.inl rfl) hnew
  · have hp' := hp.resolve_left h0
    unfold replaceChild
    split_ifs
    · exact h.setChild .L hp' hnew
    · exact h.setChild .R hp' hnew

lemma rotate (h : Relinked tr X m m') {nd : ℕ} (d : Dir) (hn : Node X nd) :
    Relinked tr X m (avlRotate d m' tr nd).1 := by
  unfold avlRotate
  by_cases h0 : nd = 0
  · rw [if_pos h0]
    exact h
  · rw [if_neg h0]
    dsimp only
    have hn' := hn.resolve_left h0
    have hroot := h.closed.child hn' d
    generalize AvlCode.child m' d nd = root at hroot ⊢
    by_cases hr0 : root = 0
    · rw [if_pos hr0]
      exact h
    · rw [if_neg hr0]
      have hr := hroot.resolve_left hr0
      have h1 := h.adopt (h.closed.child hr d.flip) hn
      generalize AvlCode.adopt m' (AvlCode.child m' d.flip root) nd = m₁ at h1 ⊢
      have hpar := h1.closed.getParent hn
      generalize AvlCode.getParent m₁ nd = par at hpar ⊢
      have h2 := h1.relink nd hpar hroot
      generalize (if par = 0 then m₁.setPtr tr root else replaceChild m₁ par nd root) = m₂
        at h2 ⊢
      have h3 := h2.setChild d hn' (h2.closed.child hr d.flip)
      have h4 := h3.setChild d.flip hr hn
      have hb := revBalanceFactor_lt
      split_ifs
      · exact (h4.setTagged hn' hroot (hb _)).setTagged hr hpar (hb _)
      · exact (h4.setTagged hn' hroot (hb _)).setTagged hr hpar (hb _)

lemma rotateDouble (h : Relinked tr X m m') {nd : ℕ} (d : Dir) (hn : X nd) :
    Relinked tr X m (avlRotateDouble d m' tr nd).1 := by
  have hch := h.closed.child hn d
  unfold avlRotateDouble
  dsimp only
  generalize AvlCode.child m' d nd = ch at hch ⊢
  have h1 := h.rotate d.flip hch
  have h2 := h1.rotate d (.inr hn)
  generalize (avlRotate d (avlRotate d.flip m' tr ch).1 tr nd).1 = m₁ at h2 ⊢
  have h3 : ∀ a b, Relinked tr X m
      (AvlCode.setBalanceFactor (AvlCode.setBalanceFactor m₁ ch a) nd b) :=
    fun a b => (h2.setBalanceFactor hch a).setBalanceFactor (.inr hn) b
  have h3' : ∀ a b, Relinked tr X m
      (AvlCode.setBalanceFactor (AvlCode.setBalanceFactor m₁ nd a) ch b) :=
    fun a b => (h2.setBalanceFactor (.inr hn) a).setBalanceFactor hch b
  split_ifs
  · exact (h3 _ _).setBalanceFactor ((h3 _ _).closed.getParent (.inr hn)) _
  · exact (h3' _ _).setBalanceFactor ((h3' _ _).closed.getParent (.inr hn)) _
  · exact (h3 _ _).setBalanceFactor ((h3 _ _).closed.getParent (.inr hn)) _

/-- The way back up. -/
lemma insertFix {n ch nd : ℕ} (h : Relinked tr X m m') (hn : Node X nd)
    (hf : insertFix tr n m' ch nd = some m'') : Relinked tr X m m'' := by
  induction n generalizing m' ch nd with
  | zero => exact absurd hf (by simp [AvlCode.insertFix])
  | succ n ih =>
    rw [AvlCode.insertFix] at hf
    by_cases h0 : nd = 0
    · rw [if_pos h0] at hf
      exact Option.some.inj hf ▸ h
    · have hn' := hn.resolve_left h0
      rw [if_neg h0] at hf
      dsimp only at hf
      generalize (if ch = AvlCode.child m' .L nd then -1 + balanceFactor m' nd
        else 1 + balanceFactor m' nd) = bf at hf
      have hb := h.setBalanceFactor hn bf
      by_cases h1 : bf = -2
      · rw [if_pos h1] at hf
        split_ifs at hf <;> obtain rfl := Option.some.inj hf
        · exact h.rotate .L hn
        · exact h.rotateDouble .L hn'
      · rw [if_neg h1] at hf
        by_cases h2 : bf = 2
        · rw [if_pos h2] at hf
          split_ifs at hf <;> obtain rfl := Option.some.inj hf
          · exact h.rotate .R hn
          · exact h.rotateDouble .R hn'
        · rw [if_neg h2] at hf
          by_cases h3 : bf = 0
          · rw [if_pos h3] at hf
            exact Option.some.inj hf ▸ hb
          · rw [if_neg h3] at hf
            exact ih hb (hb.closed.getParent hn) hf

end Relinked

/-- The descent ends at a node, or nothing has been compared. -/
lemma insertSearch_node {n nd tree insP : ℕ} {b : ℤ} {r : ℕ × ℤ} (hc : Closed m tr X)
    (ht : Node X tree) (hi : b = 0 ∨ X insP)
    (hs : insertSearch avlMemCmp m nd n tree insP b = some r) : r.2 = 0 ∨ X r.1 := by
  induction n generalizing tree insP b with
  | zero => exact absurd hs (by simp [insertSearch])
  | succ n ih =>
    rw [insertSearch] at hs
    by_cases h0 : tree = 0
    · rw [if_pos h0] at hs
      exact Option.some.inj hs ▸ hi
    · have ht' := ht.resolve_left h0
      rw [if_neg h0] at hs
      split_ifs at hs with h1 h2 h3
      · exact ih (hc.child ht' .L) (.inr ht') hs
      · exact Option.some.inj hs ▸ .inl rfl
      · exact ih (hc.child ht' .R) (.inr ht') hs
      · -- the comparator has no other results
        unfold avlMemCmp at h1 h2 h3
        split_ifs at h1 h2 h3 <;> omega

/-- **An insertion** writes the links of the nodes, and the data of the new one; what the words
of the new node held before does not matter. -/
theorem avlInsertNode_frame {nd dt : ℕ} {r : Mem × ℕ} (h0 : ¬ X 0) (hn : X nd)
    (hc : ∀ a, LinkWord tr X a → a < nd ∨ nd + 3 ≤ a → Node X (m.ptr a))
    (htr : tr < nd ∨ nd + 3 ≤ tr) (hd : ¬ LinkWord tr X (nd + 3))
    (hi : avlInsertNode avlMemCmp m tr nd dt = some r) :
    ∀ a, ¬ LinkWord tr X a → a ≠ nd + 3 → r.1 a = m a := by
  have hroot : Node X (m.ptr tr) := hc _ (.inl rfl) htr
  have hw : ∀ i < 3, LinkWord tr X (nd + i) := fun i hi => linkWord_of hn (by omega) (by omega)
  -- the new node, without its data
  have h1 : Relinked tr X m (((m.set nd 3).setPtr (nd + 1) 0).setPtr (nd + 2) 0) := by
    refine ⟨fun a ha => ?_, fun a ha => ?_⟩
    · unfold Mem.ptr
      simp only [setPtr_apply, set_apply]
      split_ifs
      · exact .inl rfl
      · exact .inl rfl
      · exact .inl rfl
      · exact hc a ha (by omega)
    · have h2 := fun i hi => ne_of_mem_of_not_mem (s := {x | LinkWord tr X x}) (hw i hi) ha
      simp only [setPtr_apply, set_apply]
      rw [if_neg (h2 2 (by omega)).symm, if_neg (h2 1 (by omega)).symm]
      exact if_neg (h2 0 (by omega)).symm
  have hclosed : Closed (writeNode m nd 3 0 0 dt) tr X := fun a ha => by
    have hne : a ≠ nd + 3 := fun heq => hd (heq ▸ ha)
    unfold writeNode Mem.ptr
    rw [set_ne _ _ hne]
    exact h1.closed a ha
  have hout : ∀ m' : Mem, Relinked tr X (writeNode m nd 3 0 0 dt) m' →
      ∀ a, ¬ LinkWord tr X a → a ≠ nd + 3 → m' a = m a := fun m' hr a ha hne => by
    rw [hr.same a ha, writeNode, set_ne _ _ hne]
    exact h1.same a ha
  have h2 := Relinked.refl hclosed
  rw [avlInsertNode] at hi
  dsimp only at hi
  generalize writeNode m nd 3 0 0 dt = m₁ at *
  split_ifs at hi with h2' h3
  · obtain rfl := Option.some.inj hi
    exact fun a _ _ => rfl
  · obtain rfl := Option.some.inj hi
    exact hout _ (h2.setPtr (.inl rfl) (.inr hn))
  · obtain ⟨⟨insP, b⟩, hs, hi⟩ := Option.bind_eq_some_iff.mp hi
    have hins := insertSearch_node hclosed hroot (.inl rfl) hs
    dsimp only at hi hins
    by_cases h4 : b = 0
    · rw [if_pos h4] at hi
      obtain rfl := Option.some.inj hi
      exact hout _ h2
    · -- the new node is linked to the last one passed
      have hins' := hins.resolve_left h4
      rw [if_neg h4] at hi
      have h5 := h2.setTagged (t := 3) hn (.inr hins') (by omega)
      have h6 : ∀ d, Relinked tr X m₁ (setChild (m₁.set nd (tagged insP 3)) d insP nd) := fun d =>
        h5.setChild d hins' (.inr hn)
      have h7 : ∀ d, getParent (setChild (m₁.set nd (tagged insP 3)) d insP nd) nd ≠ 0 := by
        intro d
        rw [getParent, if_neg h2', setChild, setPtr_apply]
        split_ifs
        · have : nd ≠ 0 := fun heq => h0 (heq ▸ hn)
          omega
        · have : insP ≠ 0 := fun heq => h0 (heq ▸ hins')
          rw [set_self, tagged_eq (by omega)]
          omega
      have hlink : ∃ d, (if b = -1 then setChild (m₁.set nd (tagged insP 3)) .L insP nd
          else setChild (m₁.set nd (tagged insP 3)) .R insP nd) =
          setChild (m₁.set nd (tagged insP 3)) d insP nd := by
        split_ifs
        · exact ⟨.L, rfl⟩
        · exact ⟨.R, rfl⟩
      obtain ⟨d, hlink⟩ := hlink
      rw [hlink] at hi
      have h8 := h6 d
      have h9 := h7 d
      generalize setChild (m₁.set nd (tagged insP 3)) d insP nd = m₂ at h8 h9 hi
      have hpar := h8.closed.getParent (.inr hn)
      split_ifs at hi with h10
      · obtain rfl := Option.some.inj hi
        have hw' : LinkWord tr X (getParent m₂ nd) :=
          linkWord_of (hpar.resolve_left h9) le_rfl (by omega)
        refine hout _ (h8.set hw' ?_)
        have hor : (m₂ (getParent m₂ nd) ||| 3) / 8 = m₂.ptr (getParent m₂ nd) := by
          have := Nat.or_div_two_pow (a := m₂ (getParent m₂ nd)) (b := 3) (n := 3)
          simpa [Mem.ptr] using this
        rw [hor]
        exact h8.closed _ hw'
      · obtain ⟨m₃, hfix, rfl⟩ := Option.map_eq_some_iff.mp hi
        exact hout _ (h8.trans (Relinked.insertFix (.refl h8.closed) hpar hfix))

end LispMachine.AvlFrame
