import LispMachine.AvlRotate

/-!
Insertion into a tree held in memory: the search for the place, and the way back up.

What the search relies on is that the comparisons of the new node with the nodes of the tree
do not increase in order: `1` before its place and `-1` after it.
-/

namespace LispMachine.AvlInsert

open LispMachine.Memory LispMachine.AvlCode LispMachine.AvlRepr LispMachine.AvlRotate
open LispMachine.Lib.BalTree LispMachine.Lib.BalTree.BTree

variable {m : Mem} {tr : ℕ} {π : P}

lemma root_ne_zero {t : T} {par : ℕ} (h : Repr m t par) (ht : t.height ≠ 0) : root t ≠ 0 := by
  cases t with
  | nil => exact absurd rfl ht
  | node b l e r => exact h.1

lemma height_eq_zero_of_root {t : T} {par : ℕ} (h : Repr m t par) (ht : root t = 0) :
    t = .nil := by
  cases t with
  | nil => rfl
  | node b l e r => exact absurd ht h.1

/-- The code tells from the left link which child it comes from. -/
lemma eq_left_child {s : Step Entry} {t : T} (hz : Zip m tr (s :: π) t) (ht : root t ≠ 0) :
    root t = child m .L s.val.1 ↔ s.dir = .L := by
  obtain ⟨d, b, ⟨p, v⟩, s⟩ := s
  obtain ⟨-, ⟨h0, h1, h2, h3, -⟩, ⟨hpw, -⟩⟩ := hz
  cases d
  · simp [child, Mem.ptr, off] at h2 ⊢
    omega
  · simp only [off, Dir.flip_R] at h3
    simp only [child, Mem.ptr, off, h3]
    have hne : root s ≠ root t := fun he => by
      have h4 := (List.pairwise_append.mp hpw).2.2 (root s)
        (by simp [root_mem_addrs (he ▸ ht)]) (root t) (root_mem_addrs ht)
      rcases h4 with h4 | h4 <;> omega
    simp
    omega

/-- One round of the way back up, in terms of the side the growing subtree is on. -/
lemma insertFix_cons {n : ℕ} {d : Dir} {b : ℤ} {e : Entry} {s t : T}
    (hz : Zip m tr (⟨d, b, e, s⟩ :: π) t) (ht : root t ≠ 0) (hb : IsBal b)
    (htb : IsBal t.bal) :
    insertFix tr (n + 1) m (root t) e.1 =
      if b = d.sgn then
        if t.bal = d.sgn then some (avlRotate d m tr e.1).1
        else some (avlRotateDouble d m tr e.1).1
      else if b = -d.sgn then some (setBalanceFactor m e.1 0)
      else insertFix tr n (setBalanceFactor m e.1 d.sgn) e.1 (parent π) := by
  have hl := eq_left_child hz ht
  obtain ⟨p, v⟩ := e
  obtain ⟨h0, h1, h2, -⟩ := hz.path
  have hB : balanceFactor m p = b := balanceFactor_of_eq h0 hb h1
  have hC : child m d p = root t := ptr_of_eq h2
  have hT := balanceFactor_root hz.tree htb
  have hP : ∀ b', getParent (setBalanceFactor m p b') p = parent π := fun b' => by
    rw [setBalanceFactor_of_eq h0 h1]
    exact getParent_of_eq h0 (set_self ..)
  have hd : (if root t = child m .L p then -1 + b else 1 + b) = d.sgn + b := by
    cases d
    · rw [if_pos (hl.mpr rfl), Dir.sgn_L]
    · rw [if_neg (fun h => by simpa using hl.mp h), Dir.sgn_R]
  simp only [insertFix, h0, if_false, hB, hd]
  cases d
  · rw [hC, hT]
    rcases hb with rfl | rfl | rfl <;> (simp [avlRotateRight, avlRotateLr, hP]; try rfl)
  · rw [hC, hT]
    rcases hb with rfl | rfl | rfl <;> (simp [avlRotateLeft, avlRotateRl, hP]; try rfl)

/-- **The way back up**: a subtree that has grown by one level is absorbed. -/
theorem insertFix_spec {n h : ℕ} {t : T} (hz : Zip m tr π t) (ht : t.Balanced)
    (hh : t.height = h + 1) (hπ : Path.Balanced π h) (hb : h ≠ 0 → t.bal ≠ 0)
    (hn : π.length < n) :
    ∃ m' t', insertFix tr n m (root t) (parent π) = some m' ∧ Zip m' tr [] t' ∧
      t'.Balanced ∧ t'.toList = (Path.fill π t).toList ∧ Frame tr (nodes π t) m m' := by
  induction π generalizing n h m t with
  | nil =>
    obtain ⟨n, rfl⟩ : ∃ k, n = k + 1 := ⟨n - 1, by simp at hn; omega⟩
    exact ⟨m, t, by simp [insertFix], hz, ht, rfl, Frame.refl tr _ m⟩
  | cons s π ih =>
    obtain ⟨n, rfl⟩ : ∃ k, n = k + 1 := ⟨n - 1, by omega⟩
    obtain ⟨d, b, e, s⟩ := s
    obtain ⟨hs, hbal, hl, hr, hπ⟩ := hπ
    simp only at hs hbal hl hr hπ
    have hr0 := root_ne_zero hz.tree (by omega)
    have hbb := isBal_of_le hl hr
    have htb := isBal_of_balanced ht
    have hz' := zip_cons_iff.mp hz
    simp only [Step.fill] at hz'
    rw [parent_cons, insertFix_cons hz hr0 hbb htb]
    rcases isBal_neg (d := d) hbb with rfl | rfl | rfl
    · -- the other side was higher: the node is level now and its height is as before
      obtain ⟨hz2, hf⟩ := zip_setBalance 0 hz'
      have hsh : s.height = h + 1 := by cases d <;> simp at hbal <;> omega
      refine ⟨_, Path.fill π (dnode d 0 t e s), ?_, zip_fill.mp hz2, ?_, ?_,
        Frame.of_fill.mpr hf⟩
      · have := d.sgn_ne_zero
        rw [if_neg (by omega), if_pos rfl]
      · refine Path.balanced_fill
          ((balanced_dnode ..).mpr ⟨ht, hs, ?_, by omega, by omega⟩) ?_
        · rw [hh, hsh]; simp
        · rw [height_dnode, hh, hsh, max_self]
          rwa [hsh, max_eq_right (by omega)] at hπ
      · exact Path.toList_congr π (toList_dnode_bal ..)
    · -- the node was level: it has grown too
      obtain ⟨hz2, hf⟩ := zip_setBalance d.sgn hz'
      have hsh : s.height = h := by cases d <;> simp at hbal <;> omega
      have hbal2 : (dnode d d.sgn t e s).Balanced := by
        refine (balanced_dnode ..).mpr ⟨ht, hs, ?_, ?_, ?_⟩
        · rw [hh, hsh]; push_cast; ring
        · cases d <;> simp
        · cases d <;> simp
      obtain ⟨m', t', h1, h2, h3, h4, h5⟩ := ih hz2 hbal2 (h := h + 1)
        (by rw [height_dnode, hh, hsh]; omega) (by rwa [hsh, max_self] at hπ)
        (fun _ => by rw [bal_dnode]; exact d.sgn_ne_zero) (by simpa using hn)
      refine ⟨m', t', ?_, h2, h3, ?_, Frame.of_fill.mpr (hf.trans (h5.of_toList ?_))⟩
      · have := d.sgn_ne_zero
        rw [if_neg (by omega), if_neg (by omega), ← h1, root_dnode]
      · rw [h4]; exact Path.toList_congr π (toList_dnode_bal ..)
      · exact toList_dnode_bal ..
    · -- this side was higher already
      have hsh : h = s.height + 1 := by cases d <;> simp at hbal <;> omega
      rw [if_pos rfl]
      have hb' := hb (by omega)
      by_cases htd : t.bal = d.sgn
      · rw [if_pos htd]
        obtain ⟨t', h1, h2, h3, h4, h5⟩ := rotate_balanced hz' ht hs (by omega)
          (by rw [htd]; have := d.sgn_ne_zero; omega)
        refine ⟨_, Path.fill π t', rfl, zip_fill.mp h1, Path.balanced_fill h2 ?_,
          Path.toList_congr π h4, Frame.of_fill.mpr h5⟩
        rw [h3, if_neg hb']
        rwa [max_eq_left (by omega), hsh] at hπ
      · rw [if_neg htd]
        obtain ⟨t', h1, h2, h3, h4, h5⟩ := rotateDouble_balanced hz' ht hs (by omega)
          (by rcases isBal_neg (d := d) htb with h | h | h <;> tauto)
        refine ⟨_, Path.fill π t', rfl, zip_fill.mp h1, Path.balanced_fill h2 ?_,
          Path.toList_congr π h4, Frame.of_fill.mpr h5⟩
        rw [h3]
        rwa [max_eq_left (by omega), hsh] at hπ

/-! ### The search -/

/-- The side of its parent the hole of a path is on. -/
def side : P → ℤ
  | [] => 0
  | s :: _ => s.dir.sgn

@[simp] lemma side_nil : side [] = 0 := rfl
@[simp] lemma side_cons (s : Step Entry) (π : P) : side (s :: π) = s.dir.sgn := rfl

/-- The comparisons `c` with the values of `L` do not increase. -/
def Falling (c : Entry → ℤ) (L : List Entry) : Prop :=
  L.Pairwise (fun a b => c b ≤ c a) ∧ ∀ e ∈ L, IsBal (c e)

/-- The hole of a path is where a value compared by `c` belongs. -/
def Fits (c : Entry → ℤ) (π : P) : Prop :=
  (∀ e ∈ Path.before π, c e = 1) ∧ ∀ e ∈ Path.after π, c e = -1

lemma Falling.left {c : Entry → ℤ} {b : ℤ} {l r : T} {e : Entry}
    (h : Falling c (BTree.node b l e r).toList) : Falling c l.toList := by
  obtain ⟨h1, h2⟩ := h
  simp only [toList, List.pairwise_append, List.mem_append] at h1 h2
  exact ⟨h1.1, fun x hx => h2 x (.inl hx)⟩

lemma Falling.right {c : Entry → ℤ} {b : ℤ} {l r : T} {e : Entry}
    (h : Falling c (BTree.node b l e r).toList) : Falling c r.toList := by
  obtain ⟨h1, h2⟩ := h
  simp only [toList, List.pairwise_append, List.pairwise_cons, List.mem_append,
    List.mem_cons] at h1 h2
  exact ⟨h1.2.1.2, fun x hx => h2 x (.inr (.inr hx))⟩

/-- To the left of a node that the new value comes before, the path still fits. -/
lemma Fits.left {c : Entry → ℤ} {b : ℤ} {l r : T} {e : Entry} (hf : Fits c π)
    (h : Falling c (BTree.node b l e r).toList) (he : c e = -1) :
    Fits c (⟨.L, b, e, r⟩ :: π) := by
  obtain ⟨h1, h2⟩ := h
  simp only [toList, List.pairwise_append, List.pairwise_cons, List.mem_append,
    List.mem_cons] at h1 h2
  refine ⟨hf.1, fun x hx => ?_⟩
  simp only [Path.after, List.cons_append, List.mem_cons, List.mem_append] at hx
  rcases hx with rfl | hx | hx
  · exact he
  · have h3 := h1.2.1.1 x hx
    rcases h2 x (.inr (.inr hx)) with h4 | h4 | h4 <;> omega
  · exact hf.2 x hx

lemma Fits.right {c : Entry → ℤ} {b : ℤ} {l r : T} {e : Entry} (hf : Fits c π)
    (h : Falling c (BTree.node b l e r).toList) (he : c e = 1) :
    Fits c (⟨.R, b, e, l⟩ :: π) := by
  obtain ⟨h1, h2⟩ := h
  simp only [toList, List.pairwise_append, List.pairwise_cons, List.mem_append,
    List.mem_cons] at h1 h2
  refine ⟨fun x hx => ?_, hf.2⟩
  simp only [Path.before, List.mem_append, List.mem_singleton] at hx
  rcases hx with hx | hx | rfl
  · exact hf.1 x hx
  · have h3 := h1.2.2 x hx e (.inl rfl)
    rcases h2 x (.inl hx) with h4 | h4 | h4 <;> omega
  · exact he

/-- **The search** ends at an equal node or at the place where the new one belongs. -/
theorem insertSearch_spec {cmp : Cmp} {c : Entry → ℤ} {nd n : ℕ} {t : T} (hz : Zip m tr π t)
    (hc : ∀ e ∈ t.toList, cmp m e.1 nd = c e) (hs : Falling c t.toList) (hf : Fits c π)
    (hn : t.height < n) :
    (∃ x, insertSearch cmp m nd n (root t) (parent π) (side π) = some (x, 0) ∧
      ∃ e ∈ t.toList, c e = 0) ∨
    ∃ π', insertSearch cmp m nd n (root t) (parent π) (side π) = some (parent π', side π') ∧
      Path.fill π' .nil = Path.fill π t ∧ Fits c π' ∧ (t ≠ .nil → π' ≠ []) := by
  induction t generalizing π n with
  | nil =>
    obtain ⟨n, rfl⟩ : ∃ k, n = k + 1 := ⟨n - 1, by omega⟩
    exact .inr ⟨π, by simp [insertSearch], rfl, hf, fun h => absurd rfl h⟩
  | node b l e r ihl ihr =>
    obtain ⟨n, rfl⟩ : ∃ k, n = k + 1 := ⟨n - 1, by omega⟩
    obtain ⟨p, v⟩ := e
    obtain ⟨h0, h1, h2, h3, -⟩ := hz.tree
    simp only [height] at hn
    have hce := hc (p, v) (by simp [toList])
    rcases hs.2 (p, v) (by simp [toList]) with he | he | he
    · -- further to the left
      have hz' : Zip m tr (⟨.L, b, (p, v), r⟩ :: π) l := zip_cons_iff.mpr hz
      have := ihl (n := n) hz' (fun e he => hc e (by simp [toList, he])) hs.left
        (hf.left hs he) (by omega)
      simp only [insertSearch, root, h0, if_false, hce, he, child, off_L, ptr_of_eq h2]
      rcases this with ⟨x, h, e, hm, h'⟩ | ⟨π', h, h', h'', h3⟩
      · exact .inl ⟨x, h, e, by simp [toList, hm], h'⟩
      · refine .inr ⟨π', h, h', h'', fun _ => ?_⟩
        rintro rfl
        exact absurd (Path.fill_eq_nil h'.symm).1 (by simp)
    · exact .inl ⟨parent π, by simp [insertSearch, root, h0, hce, he],
        (p, v), by simp [toList], he⟩
    · -- further to the right
      have hz' : Zip m tr (⟨.R, b, (p, v), l⟩ :: π) r := zip_cons_iff.mpr hz
      have := ihr (n := n) hz' (fun e he => hc e (by simp [toList, he])) hs.right
        (hf.right hs he) (by omega)
      simp only [insertSearch, root, h0, if_false, hce, he, child, off_R, ptr_of_eq h3]
      rcases this with ⟨x, h, e, hm, h'⟩ | ⟨π', h, h', h'', h3⟩
      · exact .inl ⟨x, h, e, by simp [toList, hm], h'⟩
      · refine .inr ⟨π', h, h', h'', fun _ => ?_⟩
        rintro rfl
        exact absurd (Path.fill_eq_nil h'.symm).1 (by simp)

/-! ### The insertion -/

/-- Memory holds a balanced tree whose root pointer is at `tr`. -/
structure Holds (m : Mem) (tr : ℕ) (t : T) : Prop where
  zip : Zip m tr [] t
  bal : t.Balanced

lemma Zip.congr {m' : Mem} {t : T} (h : Zip m tr π t) (htr : m' tr = m tr)
    (hf : ∀ a, Within a (nodes π t) → m' a = m a) : Zip m' tr π t :=
  ⟨h.tree.congr fun a ha => hf a (ha.mono fun x hx => by simp [hx]),
    h.path.congr htr fun a ha => hf a (ha.mono fun x hx => by simp [hx]), h.sep⟩

lemma Holds.congr {m' : Mem} {t : T} (h : Holds m tr t) (htr : m' tr = m tr)
    (hf : ∀ a, Within a (addrs t) → m' a = m a) : Holds m' tr t :=
  ⟨Zip.congr h.zip htr fun a ha => hf a (by simpa [nodes] using ha), h.bal⟩

lemma writeNode_apply (m : Mem) (nd prev left right v a : ℕ) :
    writeNode m nd prev left right v a =
      if a = nd + 3 then v else if a = nd + 2 then 8 * right
      else if a = nd + 1 then 8 * left else if a = nd then prev else m a := rfl

lemma writeNode_out (m : Mem) {nd a : ℕ} (prev left right v : ℕ) (h : ¬ Within a [nd]) :
    writeNode m nd prev left right v a = m a := by
  have h' : a < nd ∨ nd + 4 ≤ a := by
    by_contra hc
    exact h ⟨nd, by simp, by omega, by omega⟩
  rw [writeNode_apply, if_neg (by omega), if_neg (by omega), if_neg (by omega),
    if_neg (by omega)]

/-- Writing a node apart from the tree leaves the tree as it is. -/
lemma Holds.writeNode {nd : ℕ} {t : T} (h : Holds m tr t) (hsep : Sep tr (nd :: addrs t))
    (prev left right v : ℕ) : Holds (writeNode m nd prev left right v) tr t := by
  refine h.congr (writeNode_out m _ _ _ _ fun hw => hsep.2 (hw.mono (by simp)))
    fun a ha => writeNode_out m _ _ _ _ fun hw => ?_
  exact within_ne hw ha (by simpa using (List.pairwise_cons.mp hsep.1).1) rfl

/-- A node apart from the tree is linked in at the hole of a path. -/
lemma zip_link {nd v : ℕ} (hz : Zip m tr π .nil) (h0 : nd ≠ 0)
    (hsep : Sep tr (nd :: pathAddrs π)) :
    let m' := ((writeNode m nd 3 0 0 v).set nd (tagged (parent π) 3)).setPtr (linkCell tr π) nd
    Zip m' tr π (dnode .L 0 .nil (nd, v) .nil) ∧ Frame tr (nd :: pathAddrs π) m m' := by
  intro m'
  obtain ⟨hpw, htr⟩ := hsep
  have hp := (List.pairwise_cons.mp hpw).1
  have hl : linkCell tr π < nd ∨ nd + 4 ≤ linkCell tr π := by
    rcases linkCell_within tr π with h | ⟨x, hx, h1, h2⟩
    · by_contra hc
      exact htr ⟨nd, by simp, by omega, by omega⟩
    · rcases hp x hx with h | h <;> omega
  have hm : ∀ a, m' a = if a = linkCell tr π then 8 * nd
      else if a = nd then 8 * parent π + 3 else if a = nd + 3 then v
      else if a = nd + 2 then 0 else if a = nd + 1 then 0 else m a := fun a => by
    simp only [m', setPtr_apply, set_apply, writeNode_apply, tagged_eq (t := 3) (by omega)]
    split_ifs <;> rfl
  have hout : ∀ a, a ≠ linkCell tr π → ¬ Within a [nd] → m' a = m a := fun a h1 h2 => by
    have h' : a < nd ∨ nd + 4 ≤ a := by
      by_contra hc
      exact h2 ⟨nd, by simp, by omega, by omega⟩
    rw [hm, if_neg h1, if_neg (by omega), if_neg (by omega), if_neg (by omega),
      if_neg (by omega)]
  have hapart : ∀ a, a = tr ∨ Within a (pathAddrs π) → ¬ Within a [nd] := by
    rintro a ha ⟨y, hy, h1, h2⟩
    obtain rfl : y = nd := by simpa using hy
    rcases ha with rfl | ⟨x, hx, h3, h4⟩
    · exact htr ⟨y, by simp, h1, h2⟩
    · rcases hp x hx with h | h <;> omega
  refine ⟨⟨repr_dnode.mpr ⟨h0, ?_, ?_, ?_, ?_, trivial, trivial⟩, ?_, ?_⟩, ?_⟩
  · rw [hm, if_neg (by omega), if_pos rfl]; rfl
  · rw [hm, if_neg (by simp; omega), if_neg (by simp), if_neg (by simp), if_neg (by simp),
      if_pos (by simp)]; rfl
  · rw [hm, if_neg (by simp; omega), if_neg (by simp), if_neg (by simp), if_pos (by simp)]; rfl
  · rw [hm, if_neg (by omega), if_neg (by omega), if_pos rfl]
  · rw [root_dnode]
    refine path_relink hz.path ⟨(List.pairwise_cons.mp hpw).2, fun h => htr (h.mono (by simp))⟩
      (by rw [hm, if_pos rfl]) fun a ha hla => hout a hla (hapart a ha)
  · refine Sep.perm ⟨hpw, htr⟩ (List.perm_iff_count.mpr fun a => ?_)
    simp only [dnode, addrs, List.count_append, List.count_cons, List.append_nil, List.count_nil]
    omega
  · intro a h1 h2
    refine hout a ?_ fun h => h2 (h.mono (by simp))
    rintro rfl
    rcases linkCell_within tr π with h | h
    · exact h1 h
    · exact h2 (h.mono (by simp))

/-- The shortcut of the code when the parent had one child already. -/
lemma or_three {p par : ℕ} {b : ℤ} (h0 : p ≠ 0) (h : m p = 8 * par + revBalanceFactor b) :
    m.set p (m p ||| 3) = setBalanceFactor m p 0 := by
  have hlt : ∀ t < 4, t ||| 3 = 3 := by decide
  have h3 : m p ||| 3 = 8 * par + 3 := by
    rw [h, ← tagged_eq (revBalanceFactor_lt b), tagged, Nat.or_assoc,
      hlt _ (revBalanceFactor_lt b), ← tagged, tagged_eq (by omega)]
  rw [setBalanceFactor_of_eq h0 h, h3]
  rfl

/-- Linking a new leaf into the hole of a path and restoring the balance. -/
lemma attach_spec {n : ℕ} {e : Entry} {d : Dir} {b : ℤ} {s leaf : T}
    (hz : Zip m tr (⟨d, b, e, s⟩ :: π) leaf) (hl : leaf.Balanced) (hh : leaf.height = 1)
    (hπ : Path.Balanced (⟨d, b, e, s⟩ :: π) 0) (hn : π.length + 1 < n) :
    ∃ m' t', (if child m .L e.1 ≠ 0 ∧ child m .R e.1 ≠ 0 then
          some (m.set e.1 (m e.1 ||| 3), 0)
        else (insertFix tr n m (root leaf) e.1).map fun m => (m, 0)) = some (m', 0) ∧
      Holds m' tr t' ∧ t'.toList = (Path.fill (⟨d, b, e, s⟩ :: π) leaf).toList ∧
      Frame tr (nodes (⟨d, b, e, s⟩ :: π) leaf) m m' := by
  obtain ⟨p, v⟩ := e
  obtain ⟨h0, h1, h2, h3, -⟩ := hz.path
  have hr0 := root_ne_zero hz.tree (by omega)
  obtain ⟨hs, hbal, hb1, hb2, hπ'⟩ := hπ
  simp only at hs hbal hb1 hb2 hπ'
  have hkids : (child m .L p ≠ 0 ∧ child m .R p ≠ 0) ↔ root s ≠ 0 := by
    cases d <;> simp [off] at h2 h3 <;> simp [child, off, Mem.ptr, h2, h3, hr0]
  rw [if_congr hkids rfl rfl]
  by_cases hsr : root s = 0
  · -- the parent was a leaf
    rw [if_neg (by simpa using hsr)]
    obtain ⟨m', t', g1, g2, g3, g4, g5⟩ := insertFix_spec (n := n) (h := 0) hz hl hh
      ⟨hs, hbal, hb1, hb2, hπ'⟩ (fun h => absurd rfl h) (by simpa using hn)
    rw [parent_cons] at g1
    exact ⟨m', t', by rw [g1]; rfl, ⟨g2, g3⟩, g4, g5⟩
  · -- the parent had its other child already
    rw [if_pos hsr, or_three h0 h1]
    obtain ⟨g1, g2⟩ := zip_setBalance 0 (zip_cons_iff.mp hz)
    have hsh : s.height = 1 := by
      have : s.height ≠ 0 := fun h => hsr (by rw [height_eq_zero.mp h]; rfl)
      cases d <;> simp at hbal <;> omega
    refine ⟨_, _, rfl, ⟨zip_fill.mp g1, Path.balanced_fill ((balanced_dnode ..).mpr
      ⟨hl, hs, by simp [hh, hsh], by omega, by omega⟩) ?_⟩,
      Path.toList_congr π (toList_dnode_bal ..), Frame.of_fill.mpr g2⟩
    rw [height_dnode, hh, hsh]
    simpa [hsh] using hπ'

/-- **Insertion** of a node apart from the tree: an equal node is met and the tree is left
alone, or the node ends up in its place and the tree is balanced again. -/
theorem avlInsertNode_spec {cmp : Cmp} {c : Entry → ℤ} {t : T} {nd v : ℕ} (h : Holds m tr t)
    (h0 : nd ≠ 0) (hsep : Sep tr (nd :: addrs t))
    (hc : ∀ e ∈ t.toList, cmp (writeNode m nd 3 0 0 v) e.1 nd = c e)
    (hs : Falling c t.toList) (hn : t.height + 1 < fuel) :
    ((∃ e ∈ t.toList, c e = 0) ∧
      avlInsertNode cmp m tr nd v = some (writeNode m nd 3 0 0 v, 1)) ∨
    ∃ m' t' L₁ L₂, avlInsertNode cmp m tr nd v = some (m', 0) ∧ Holds m' tr t' ∧
      t.toList = L₁ ++ L₂ ∧ t'.toList = L₁ ++ (nd, v) :: L₂ ∧ (∀ e ∈ L₁, c e = 1) ∧
      (∀ e ∈ L₂, c e = -1) ∧ Frame tr (nd :: addrs t) m m' := by
  have hroot : m.ptr tr = root t := ptr_of_eq h.zip.path
  have hap := (List.pairwise_cons.mp hsep.1).1
  have hh1 : Holds (writeNode m nd 3 0 0 v) tr t := h.writeNode hsep 3 0 0 v
  by_cases ht : root t = 0
  · -- the first node
    obtain rfl := height_eq_zero_of_root h.zip.tree ht
    obtain ⟨h1, h2⟩ := zip_link (v := v) h.zip h0 (by simpa using hsep)
    have he : ((writeNode m nd 3 0 0 v).set nd (tagged 0 3)).setPtr tr nd =
        (writeNode m nd 3 0 0 v).setPtr tr nd := by
      congr 1
      funext a
      rw [set_apply, tagged_eq (by omega), writeNode_apply]
      split_ifs <;> omega
    simp only [parent_nil, linkCell, he] at h1 h2
    refine .inr ⟨_, _, [], [], by simp [avlInsertNode, hroot, h0], ⟨h1, ?_⟩, rfl, rfl, by simp,
      by simp, by simpa using h2⟩
    simp [dnode, BTree.Balanced]
  · have hsearch := insertSearch_spec (n := fuel) hh1.zip hc hs ⟨by simp, by simp⟩ (by omega)
    simp only [parent_nil, side_nil] at hsearch
    simp only [avlInsertNode, hroot, h0, if_false, ht]
    rcases hsearch with ⟨x, hx, he⟩ | ⟨π', hx, hfill, hfit, hne⟩
    · exact .inl ⟨he, by rw [hx]; rfl⟩
    · obtain _ | ⟨⟨d, b, e, s⟩, π⟩ := π'
      · exact absurd rfl (hne (by rintro rfl; exact ht rfl))
      have hz1 := h.zip
      rw [← Path.fill_nil t, ← hfill] at hz1
      have hz2 := zip_fill.mpr hz1
      have hbal : Path.Balanced (⟨d, b, e, s⟩ :: π) 0 :=
        (Path.balanced_of_fill (t := .nil) (hfill ▸ h.bal)).2
      have hadd : ∀ x, x ∈ pathAddrs (⟨d, b, e, s⟩ :: π) ↔ x ∈ addrs t := fun x => by
        have h1 : addrs (Path.fill (⟨d, b, e, s⟩ :: π) .nil) = addrs t := by rw [hfill]; rfl
        rw [← h1]
        simpa [nodes] using (nodes_fill_perm' (⟨d, b, e, s⟩ :: π) .nil).mem_iff (a := x)
      have hsep' : Sep tr (nd :: pathAddrs (⟨d, b, e, s⟩ :: π)) := by
        refine ⟨List.pairwise_cons.mpr ⟨fun x hx => hap x ((hadd x).mp hx), ?_⟩, fun hw =>
          hsep.2 (hw.mono fun x hx => ?_)⟩
        · simpa using hz2.sep.1
        · rcases List.mem_cons.mp hx with rfl | hx
          · simp
          · simp [(hadd x).mp hx]
      obtain ⟨hz3, hf3⟩ := zip_link (v := v) hz2 h0 hsep'
      have hlen : π.length + 1 < fuel := by
        have := Path.length_le (⟨d, b, e, s⟩ :: π) .nil
        rw [hfill] at this
        simp at this
        omega
      obtain ⟨m', t', g1, g2, g3, g4⟩ := attach_spec (n := fuel) hz3
        (by simp [dnode, BTree.Balanced]) (by simp) hbal hlen
      have hpar : getParent (((writeNode m nd 3 0 0 v).set nd (tagged e.1 3)).setPtr
          (e.1 + off d) nd) nd = e.1 :=
        getParent_of_eq h0 (repr_dnode.mp hz3.tree).2.1
      have hlist : t.toList = Path.before (⟨d, b, e, s⟩ :: π) ++
          Path.after (⟨d, b, e, s⟩ :: π) := by
        rw [← Path.fill_nil t, ← hfill, Path.toList_fill]; simp
      refine .inr ⟨m', t', _, _, ?_, g2, hlist, ?_, hfit.1, hfit.2, ?_⟩
      · rw [hx, Option.bind_some]
        simp only [root_dnode, parent_cons, linkCell] at g1 hpar
        cases d
        · simp only [parent_cons, side_cons, Dir.sgn_L, reduceCtorEq, Int.reduceNeg,
            if_false, if_true, setChild, hpar]
          exact g1
        · simp only [parent_cons, side_cons, Dir.sgn_R, reduceCtorEq, Int.reduceNeg,
            Int.reduceEq, if_false, setChild, hpar]
          exact g1
      · rw [g3, Path.toList_fill]
        simp [dnode, toList]
      · refine (hf3.mono fun x hx => ?_).trans (g4.mono fun x hx => ?_)
        · rcases List.mem_cons.mp hx with rfl | hx
          · simp
          · simp [(hadd x).mp hx]
        · rcases List.mem_append.mp hx with hx | hx
          · simp [(hadd x).mp hx]
          · simp [dnode, addrs] at hx
            simp [hx]

end LispMachine.AvlInsert
