import LispMachine.AvlTree
import LispMachine.MachineStep

/-!
`check_balance_factors`, the checker of the recorded balances.

The tags are arbitrary here, also the one that stands for no balance; it is read as `-3`. The
checker does not look at the tags of leaves, and it has no case for that value.
-/

namespace LispMachine.BalanceCheck

open LispMachine.Memory LispMachine.AvlCode LispMachine.AvlRepr LispMachine.AvlTree
open LispMachine.Lib.BalTree LispMachine.Lib.BalTree.BTree LispMachine.Machine
open LispMachine.MachineStep LispMachine.AvlRotate

/-- `max` -/
def max (x y : ℕ) : ℕ := if sword x < sword y then y else x

/-- `avl_tree_height`, one less than the number of levels. -/
def avlTreeHeight (m : Mem) : ℕ → ℕ → Option ℕ
  | 0, _ => none
  | n + 1, nd =>
    if nd = 0 then some (wordMod - 1)
    else
      (avlTreeHeight m n (child m .L nd)).bind fun lh =>
        (avlTreeHeight m n (child m .R nd)).map fun rh => wadd 1 (max lh rh)

/-- The `switch` at the end of `check_balance_factors`. -/
def checkNode (lh rh : ℕ) (bf : ℤ) (tree : ℕ) : ℕ :=
  match bf with
  | -1 => if ¬ lh = wadd rh 1 then tree else 0
  | 0 => if ¬ lh = rh then tree else 0
  | 1 => if ¬ wadd lh 1 = rh then tree else 0
  | _ => 0

/-- The recursion of `check_balance_factors`. -/
def checkLoop (m : Mem) : ℕ → ℕ → Option ℕ
  | 0, _ => none
  | n + 1, tree =>
    if tree = 0 then some 0
    else if child m .L tree = 0 ∧ child m .R tree = 0 then some 0
    else
      (avlTreeHeight m fuel (child m .L tree)).bind fun lh =>
      (avlTreeHeight m fuel (child m .R tree)).bind fun rh =>
        let bf := balanceFactor m tree
        (checkLoop m n (child m .L tree)).bind fun lerr =>
          if lerr ≠ 0 then some lerr
          else
            (checkLoop m n (child m .R tree)).map fun rerr =>
              if rerr ≠ 0 then rerr else checkNode lh rh bf tree

/-- `check_balance_factors` -/
def checkBalanceFactors (m : Mem) (tree : ℕ) : Option ℕ := checkLoop m fuel tree

/-! ### Trees with any tags -/

/-- The memory holds the tree, with any tags and parents. -/
def Tagged (m : Mem) : T → Prop
  | .nil => True
  | .node b l (p, v) r => p ≠ 0 ∧ balanceFactor m p = b ∧ child m .L p = root l ∧
      child m .R p = root r ∧ data m p = v ∧ Tagged m l ∧ Tagged m r

instance decTagged (m : Mem) : (t : T) → Decidable (Tagged m t)
  | .nil => inferInstanceAs (Decidable True)
  | .node _ l (_, _) r =>
    have := decTagged m l
    have := decTagged m r
    inferInstanceAs (Decidable (_ ∧ _ ∧ _ ∧ _ ∧ _ ∧ _ ∧ _))

instance (p q : ℕ) : Decidable (Apart p q) := inferInstanceAs (Decidable (_ ∨ _))

/-- The tag of a node stands for the difference of the heights below it. -/
def Right (b : ℤ) (l r : T) : Prop := b = (r.height : ℤ) - l.height ∧ -1 ≤ b ∧ b ≤ 1

instance (b : ℤ) (l r : T) : Decidable (Right b l r) :=
  inferInstanceAs (Decidable (_ ∧ _ ∧ _))

/-- The nodes with a wrong tag that satisfy `P`, those further down first. -/
def wrong (P : ℤ → T → T → Bool) : T → List ℕ
  | .nil => []
  | .node b l e r => wrong P l ++ wrong P r ++ if ¬ Right b l r ∧ P b l r then [e.1] else []

/-- The checker looks at the tag: it is not that of a leaf, and it stands for a balance. -/
def looks (b : ℤ) (l r : T) : Bool := (root l ≠ 0 ∨ root r ≠ 0) ∧ b ≠ -3

/-- The nodes with a wrong tag, those of them that the checker looks at, and the others. -/
def wrongNodes (t : T) : List ℕ := wrong (fun _ _ _ => true) t
def noticed (t : T) : List ℕ := wrong looks t
def missed (t : T) : List ℕ := wrong (fun b l r => !looks b l r) t

variable {m : Mem} {t l r : T} {p n : ℕ} {b x y : ℤ} {P : ℤ → T → T → Bool}

lemma balanced_iff : t.Balanced ↔ wrongNodes t = [] := by
  unfold wrongNodes
  induction t with
  | nil => simp [wrong]
  | node b l e r ihl ihr => simp [wrong, BTree.Balanced, Right, ihl, ihr]

lemma wrong_subset : wrong P t ⊆ wrongNodes t := by
  unfold wrongNodes
  induction t with
  | nil => exact List.Subset.refl _
  | node b l e r ihl ihr =>
    intro q hq
    rw [wrong, List.mem_append, List.mem_append] at hq ⊢
    refine hq.imp (Or.imp (fun h => ihl h) fun h => ihr h) fun h => ?_
    by_cases hb : ¬ Right b l r ∧ P b l r
    · rw [if_pos hb] at h
      rwa [if_pos ⟨hb.1, rfl⟩]
    · rw [if_neg hb] at h
      exact absurd h List.not_mem_nil

lemma mem_wrongNodes {q : ℕ} : q ∈ wrongNodes t ↔ q ∈ noticed t ∨ q ∈ missed t := by
  refine ⟨fun h => ?_, fun h => h.elim (fun h => wrong_subset h) fun h => wrong_subset h⟩
  unfold wrongNodes noticed missed at *
  induction t with
  | nil => exact .inl h
  | node b l e r ihl ihr =>
    simp only [wrong, List.mem_append] at h ihl ihr ⊢
    rcases h with (h | h) | h
    · exact (ihl h).imp (fun h => .inl (.inl h)) fun h => .inl (.inl h)
    · exact (ihr h).imp (fun h => .inl (.inr h)) fun h => .inl (.inr h)
    · by_cases hb : Right b l r
      · rw [if_neg (fun h => h.1 hb)] at h
        exact absurd h List.not_mem_nil
      · rw [if_pos ⟨hb, trivial⟩] at h
        by_cases hlook : looks b l r = true
        · exact .inl (.inr (by rwa [if_pos ⟨hb, hlook⟩]))
        · exact .inr (.inr (by rwa [if_pos ⟨hb, by simpa using hlook⟩]))

lemma wrong_addrs : wrong P t ⊆ addrs t := by
  induction t with
  | nil => exact List.Subset.refl _
  | node b l e r ihl ihr =>
    intro q hq
    rw [wrong, List.mem_append, List.mem_append] at hq
    rw [addrs, List.mem_cons, List.mem_append]
    rcases hq with (h | h) | h
    · exact .inr (.inl (ihl h))
    · exact .inr (.inr (ihr h))
    · split_ifs at h
      · exact .inl (List.mem_singleton.mp h)
      · exact absurd h List.not_mem_nil

/-! ### What the checker computes -/

lemma balanceFactor_cases (m : Mem) (hp : p ≠ 0) :
    balanceFactor m p = -3 ∨ balanceFactor m p = -1 ∨ balanceFactor m p = 0 ∨
      balanceFactor m p = 1 := by
  have hlt : getBalanceFactor m p < 4 := by
    rw [getBalanceFactor, if_neg hp, and_three]
    exact Nat.mod_lt _ (by decide)
  rw [balanceFactor, if_neg hp]
  split_ifs with h1 <;> omega

lemma Tagged.ne_zero (h : Tagged m t) {q : ℕ} (hq : q ∈ addrs t) : q ≠ 0 := by
  induction t with
  | nil => exact absurd hq List.not_mem_nil
  | node b l e r ihl ihr =>
    obtain ⟨hp, -, -, -, -, hl, hr⟩ := h
    rw [addrs, List.mem_cons, List.mem_append] at hq
    rcases hq with rfl | hq | hq
    · exact hp
    · exact ihl hl hq
    · exact ihr hr hq

/-- The word that stands for a height of a subtree, one less than the number of its levels. -/
def heightWord (t : T) : ℕ := toWord ((t.height : ℤ) - 1)

lemma max_toWord (hx : -2 ^ 63 ≤ x ∧ x < 2 ^ 63) (hy : -2 ^ 63 ≤ y ∧ y < 2 ^ 63) :
    max (toWord x) (toWord y) = toWord (Max.max x y) := by
  rw [max, sword_toWord hx, sword_toWord hy]
  split_ifs with h
  · rw [max_eq_right h.le]
  · rw [max_eq_left (not_lt.mp h)]

lemma wadd_toWord (x : ℤ) : wadd 1 (toWord x) = toWord (x + 1) ∧
    wadd (toWord x) 1 = toWord (x + 1) := by
  unfold wadd toWord wordMod
  omega

lemma toWord_inj (hx : -2 ^ 63 ≤ x ∧ x < 2 ^ 63) (hy : -2 ^ 63 ≤ y ∧ y < 2 ^ 63) :
    toWord x = toWord y ↔ x = y :=
  ⟨fun h => by rw [← sword_toWord hx, h, sword_toWord hy], fun h => congrArg toWord h⟩

/-- **The height** that the code computes. -/
lemma avlTreeHeight_spec (h : Tagged m t) (hn : t.height < n) (ht : t.height < 2 ^ 62) :
    avlTreeHeight m n (root t) = some (heightWord t) := by
  induction n generalizing t with
  | zero => exact absurd hn (Nat.not_lt_zero _)
  | succ n ih =>
    cases t with
    | nil => rfl
    | node b l e r =>
      obtain ⟨hp, -, hl, hr, -, htl, htr⟩ := h
      rw [height] at hn ht
      rw [root, avlTreeHeight, if_neg hp, hl, hr, ih htl (by omega) (by omega),
        ih htr (by omega) (by omega)]
      have hmax : max (heightWord l) (heightWord r) =
          toWord (Max.max ((l.height : ℤ) - 1) ((r.height : ℤ) - 1)) :=
        max_toWord (by omega) (by omega)
      rw [Option.bind_some, Option.map_some, hmax, (wadd_toWord _).1, heightWord, height]
      congr 2
      push_cast
      omega

lemma checkNode_spec (hb : b = -3 ∨ b = -1 ∨ b = 0 ∨ b = 1) (hl : l.height < 2 ^ 62)
    (hr : r.height < 2 ^ 62) : checkNode (heightWord l) (heightWord r) b p =
      if ¬ Right b l r ∧ b ≠ -3 then p else 0 := by
  unfold heightWord
  rcases hb with rfl | rfl | rfl | rfl
  · exact (if_neg fun h => h.2 rfl).symm
  · have h1 := toWord_inj (x := (l.height : ℤ) - 1) (y := (r.height : ℤ) - 1 + 1) (by omega)
      (by omega)
    rw [checkNode, (wadd_toWord _).2]
    refine if_congr ((not_congr h1).trans ?_) rfl rfl
    unfold Right
    omega
  · have h1 := toWord_inj (x := (l.height : ℤ) - 1) (y := (r.height : ℤ) - 1) (by omega)
      (by omega)
    refine if_congr ((not_congr h1).trans ?_) rfl rfl
    unfold Right
    omega
  · have h1 := toWord_inj (x := (l.height : ℤ) - 1 + 1) (y := (r.height : ℤ) - 1) (by omega)
      (by omega)
    rw [checkNode, (wadd_toWord _).2]
    refine if_congr ((not_congr h1).trans ?_) rfl rfl
    unfold Right
    omega

lemma headD_append {L L' : List ℕ} (h : ∀ q ∈ L, q ≠ 0) : (L ++ L').headD 0 =
    if L.headD 0 ≠ 0 then L.headD 0 else L'.headD 0 := by
  cases L with
  | nil => rfl
  | cons q L => exact (if_pos (h q List.mem_cons_self)).symm

lemma root_eq_zero (h : Tagged m t) : root t = 0 ↔ t = .nil := by
  cases t with
  | nil => simp
  | node b l e r => simp [root, h.1]

/-- **The checker** returns the first of the nodes that it notices. -/
lemma checkLoop_spec (h : Tagged m t) (hn : t.height < n) (ht : t.height < fuel) :
    checkLoop m n (root t) = some ((noticed t).headD 0) := by
  unfold noticed
  induction n generalizing t with
  | zero => exact absurd hn (Nat.not_lt_zero _)
  | succ n ih =>
    cases t with
    | nil => rfl
    | node b l e r =>
      obtain ⟨p, v⟩ := e
      obtain ⟨hp, hb, hl, hr, -, htl, htr⟩ := h
      rw [height] at hn ht
      have hfuel : fuel < 2 ^ 62 := by decide
      rw [root, checkLoop, if_neg hp, hl, hr, hb]
      by_cases hleaf : root l = 0 ∧ root r = 0
      · rw [if_pos hleaf]
        obtain rfl := (root_eq_zero htl).mp hleaf.1
        obtain rfl := (root_eq_zero htr).mp hleaf.2
        simp [wrong, looks]
      · have hcase := balanceFactor_cases m hp
        rw [hb] at hcase
        rw [if_neg hleaf, avlTreeHeight_spec htl (by omega) (by omega),
          avlTreeHeight_spec htr (by omega) (by omega), ih htl (by omega) (by omega),
          ih htr (by omega) (by omega), Option.bind_some, Option.bind_some]
        have hne (t : T) (ht : Tagged m t) : ∀ q ∈ wrong looks t, q ≠ 0 := fun q hq =>
          ht.ne_zero (wrong_addrs hq)
        have hlook : looks b l r = decide (b ≠ -3) := by
          have : root l ≠ 0 ∨ root r ≠ 0 := by omega
          simp [looks, this]
        have hnode : (if ¬ Right b l r ∧ looks b l r then [p] else []).headD 0 =
            checkNode (heightWord l) (heightWord r) b p := by
          rw [checkNode_spec hcase (by omega) (by omega)]
          simp only [hlook, decide_eq_true_eq]
          split_ifs <;> rfl
        rw [wrong, List.append_assoc, headD_append (hne l htl), headD_append (hne r htr), hnode]
        dsimp only [Option.bind_some, Option.map_some]
        split_ifs <;> rfl

lemma height_lt_fuel (hap : (addrs t).Pairwise Apart) (hroom : ∀ p ∈ addrs t, p + 4 ≤ addrSpace) :
    t.height < fuel := by
  have h1 := length_le_of_apart hap hroom
  have h2 := (addrs_perm t).length_eq
  have h3 := t.height_le_length
  rw [List.length_map] at h2
  unfold fuel
  unfold addrSpace at h1 ⊢
  omega

/-- **The checker** is right if and only if there is no wrong tag on a leaf, nor one that stands for
no balance, or else there is another wrong tag. -/
theorem check_exact_iff (h : Tagged m t) (hap : (addrs t).Pairwise Apart)
    (hroom : ∀ p ∈ addrs t, p + 4 ≤ addrSpace) :
    (∃ r, checkBalanceFactors m (root t) = some r ∧ (r = 0 ↔ t.Balanced) ∧
      (r ≠ 0 → r ∈ wrongNodes t)) ↔ missed t = [] ∨ noticed t ≠ [] := by
  have hfuel := height_lt_fuel hap hroom
  rw [checkBalanceFactors, checkLoop_spec h hfuel hfuel, balanced_iff]
  cases hn : noticed t with
  | nil =>
    have hiff : wrongNodes t = [] ↔ missed t = [] := by
      simp only [List.eq_nil_iff_forall_not_mem, mem_wrongNodes, hn, List.not_mem_nil, false_or]
    rw [hiff]
    simp
  | cons q L =>
    have hq : q ∈ noticed t := hn ▸ List.mem_cons_self
    have hq0 : q ≠ 0 := h.ne_zero (wrong_addrs hq)
    have hmem : q ∈ wrongNodes t := wrong_subset hq
    refine iff_of_true ⟨q, rfl, iff_of_false hq0 fun hnil => ?_, fun _ => hmem⟩ (.inr (by simp))
    rw [hnil] at hmem
    exact absurd hmem List.not_mem_nil

/-- A node with a child and the tag that it should have -/
def twoNodes : T := .node 1 .nil (4, 0) (.node 0 .nil (8, 0) .nil)

/-- The memory that holds it -/
def twoNodesMem : Mem := fun x =>
  if x = 4 then 1 else if x = 6 then 64 else if x = 8 then 35 else 0

/-- The checker is right about it. -/
theorem check_exact_two : ∃ r, checkBalanceFactors twoNodesMem (root twoNodes) = some r ∧
    (r = 0 ↔ twoNodes.Balanced) ∧ (r ≠ 0 → r ∈ wrongNodes twoNodes) :=
  (check_exact_iff (by decide) (by decide) (by decide)).mpr (.inl (by decide))

/-- A leaf with the tag of a node whose right subtree is the higher one -/
def heavyLeaf : T := .node 1 .nil (4, 0) .nil

/-- The wrong tag of a leaf is not found. -/
theorem not_check_exact : ¬ ∀ (m : Mem) (t : T), Tagged m t → (addrs t).Pairwise Apart →
    (∀ p ∈ addrs t, p + 4 ≤ addrSpace) →
    ∃ r, checkBalanceFactors m (root t) = some r ∧ (r = 0 ↔ t.Balanced) ∧
      (r ≠ 0 → r ∈ wrongNodes t) := by
  intro h
  have htag : Tagged (fun x => if x = 4 then 1 else 0) heavyLeaf := by decide
  have hheight : heavyLeaf.height < fuel := by decide
  obtain ⟨r, hr, hbal, -⟩ := h _ heavyLeaf htag (by decide) (by decide)
  rw [checkBalanceFactors, checkLoop_spec htag hheight hheight] at hr
  obtain rfl : 0 = r := Option.some.inj hr
  exact absurd (hbal.mp rfl) (by rw [balanced_iff]; decide)

/-! ### The trees of the operations -/

lemma tagged_of_repr {par : ℕ} (h : Repr m t par) (ht : t.Balanced) : Tagged m t := by
  induction t generalizing par with
  | nil => trivial
  | node b l e r ihl ihr =>
    obtain ⟨p, v⟩ := e
    obtain ⟨hp, hb, hl, hr, hv, htl, htr⟩ := h
    obtain ⟨hbl, hbr, -, h1, h2⟩ := ht
    exact ⟨hp, balanceFactor_of_eq hp (isBal_of_le h1 h2) hb, ptr_of_eq hl, ptr_of_eq hr, hv,
      ihl htl hbl, ihr htr hbr⟩

/-- **Rebalancing** leaves nothing for the checker to find, whatever was inserted and deleted. -/
theorem check_good {c : ℕ → ℕ → ℤ} {tr : ℕ} {s : St} (h : Good c tr s t) :
    checkBalanceFactors s.mem (root t) = some 0 := by
  have hfuel : t.height < fuel := Nat.lt_of_succ_lt h.fuel_lt
  have htag := tagged_of_repr h.holds.zip.tree h.holds.bal
  rw [checkBalanceFactors, checkLoop_spec htag hfuel hfuel]
  have hnil := balanced_iff.mp h.holds.bal
  have hnone : noticed t = [] := List.eq_nil_iff_forall_not_mem.mpr fun q hq =>
    absurd (wrong_subset hq) (hnil ▸ List.not_mem_nil)
  rw [hnone]
  rfl

end LispMachine.BalanceCheck
