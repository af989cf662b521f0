import LispMachine.AvlInsert

/-!
Deletion from a tree held in memory, and the other operations of the trees that are kept in
free memory: moving a node to another place and finding one that is large enough.
-/

namespace LispMachine.AvlDelete

open LispMachine.Memory LispMachine.AvlCode LispMachine.AvlRepr LispMachine.AvlRotate
open LispMachine.AvlInsert LispMachine.Lib.BalTree LispMachine.Lib.BalTree.BTree

variable {m : Mem} {tr : ℕ} {π : P}

/-- The side the code computes for the next round. -/
lemma next_side {s : Step Entry} {t : T} (hz : Zip m tr (s :: π) t) (hπ : π ≠ []) :
    (if parent π ≠ 0 then (if child m .L (parent π) = s.val.1 then -1 else 1) else s.dir.sgn) =
      side π := by
  obtain _ | ⟨s', π⟩ := π
  · exact absurd rfl hπ
  · have hz' := zip_cons_iff.mp hz
    have h0 : s'.val.1 ≠ 0 := hz'.path.1
    have hs : s.val.1 ≠ 0 := hz.path.1
    have hl := eq_left_child hz' (by simpa [Step.fill] using hs)
    simp only [Step.fill, root_dnode] at hl
    rw [parent_cons, if_pos h0, side_cons]
    by_cases hd : s'.dir = .L
    · rw [if_pos (hl.mpr hd).symm, hd]; rfl
    · rw [if_neg fun h => hd (hl.mp h.symm)]
      cases h : s'.dir
      · exact absurd h hd
      · rfl

/-- One round of the way back up, in terms of the side that has lost a level. -/
lemma deleteFix_cons {n : ℕ} {d : Dir} {b : ℤ} {e : Entry} {s t : T}
    (hz : Zip m tr (⟨d, b, e, s⟩ :: π) t) (hb : IsBal b) (hsb : IsBal s.bal) :
    ∃ δ, (π ≠ [] → δ = side π) ∧
      deleteFix tr (n + 1) m e.1 d.sgn =
        if b = -d.sgn then
          let m' := if s.bal = d.sgn then (avlRotateDouble d.flip m tr e.1).1
            else (avlRotate d.flip m tr e.1).1
          if s.bal = 0 then some m' else deleteFix tr n m' (parent π) δ
        else if b = 0 then some (setBalanceFactor m e.1 (-d.sgn))
        else deleteFix tr n (setBalanceFactor m e.1 0) (parent π) δ := by
  have hnext := next_side hz
  obtain ⟨p, v⟩ := e
  obtain ⟨h0, h1, h2, h3, h4, hs, -⟩ := hz.path
  refine ⟨_, hnext, ?_⟩
  have hB : balanceFactor m p = b := balanceFactor_of_eq h0 hb h1
  have hP : getParent m p = parent π := getParent_of_eq h0 h1
  have hC : child m d.flip p = root s := ptr_of_eq h3
  have hS := balanceFactor_root hs hsb
  simp only [deleteFix, h0, if_false, hB, hP]
  cases d
  · simp only [Dir.flip_L] at hC
    rw [hC, hS]
    rcases hb with rfl | rfl | rfl <;>
      (simp [avlRotateLeft, avlRotateRl]; try rfl)
  · simp only [Dir.flip_R] at hC
    rw [hC, hS]
    rcases hb with rfl | rfl | rfl <;>
      (simp [avlRotateRight, avlRotateLr]; try rfl)

/-- **The way back up**: a subtree that has lost a level is made up for. -/
theorem deleteFix_spec {n h : ℕ} {t : T} {δ : ℤ} (hz : Zip m tr π t) (ht : t.Balanced)
    (hh : t.height = h) (hπ : Path.Balanced π (h + 1)) (hδ : π ≠ [] → δ = side π)
    (hn : π.length < n) :
    ∃ m' t', deleteFix tr n m (parent π) δ = some m' ∧ Holds m' tr t' ∧
      t'.toList = (Path.fill π t).toList ∧ Frame tr (nodes π t) m m' := by
  induction π generalizing n h m t δ with
  | nil =>
    obtain ⟨n, rfl⟩ : ∃ k, n = k + 1 := ⟨n - 1, by simp at hn; omega⟩
    exact ⟨m, t, by simp [deleteFix], ⟨hz, ht⟩, rfl, Frame.refl tr _ m⟩
  | cons s π ih =>
    obtain ⟨n, rfl⟩ : ∃ k, n = k + 1 := ⟨n - 1, by omega⟩
    obtain ⟨d, b, e, s⟩ := s
    obtain ⟨hs, hbal, hl, hr, hπ⟩ := hπ
    simp only at hs hbal hl hr hπ
    have hbb := isBal_of_le hl hr
    have hz' := zip_cons_iff.mp hz
    simp only [Step.fill] at hz'
    obtain ⟨δ', hδ', hstep⟩ := deleteFix_cons (n := n) hz hbb (isBal_of_balanced hs)
    rw [parent_cons, hδ (by simp), side_cons, hstep]
    have hd0 := d.sgn_ne_zero
    rcases isBal_neg (d := d) hbb with rfl | rfl | rfl
    · -- the other side was higher already
      have hsh : s.height = h + 2 := by cases d <;> simp at hbal <;> omega
      rw [← dnode_flip] at hz'
      have hflip : ∀ b', (dnode d.flip b' s e t).toList = (dnode d (-d.sgn) t e s).toList :=
        fun b' => by rw [dnode_flip]; exact toList_dnode_bal ..
      rw [hsh, max_eq_right (by omega)] at hπ
      rw [if_pos rfl]
      dsimp only
      by_cases hsd : s.bal = d.sgn
      · -- and its inner grandchild is the higher one
        rw [if_pos hsd, if_neg (by omega)]
        obtain ⟨t', h1, h2, h3, h4, h5⟩ := rotateDouble_balanced hz' hs ht (by omega)
          (by rw [hsd]; simp)
        obtain ⟨m', t'', g1, g2, g3, g4⟩ := ih h1 h2 (h := h + 2) (by omega) hπ hδ'
          (by simpa using hn)
        refine ⟨m', t'', g1, g2, g3.trans (Path.toList_congr π (h4.trans (hflip _))),
          Frame.of_fill.mpr (Frame.of_toList ?_ (hflip (-d.sgn)))⟩
        exact h5.trans (g4.of_toList h4)
      · rw [if_neg hsd]
        obtain ⟨t', h1, h2, h3, h4, h5⟩ := rotate_balanced hz' hs ht (by omega)
          (by simpa using hsd)
        by_cases hs0 : s.bal = 0
        · -- the height is as before
          rw [if_pos hs0] at h3 ⊢
          refine ⟨_, Path.fill π t', rfl, ⟨zip_fill.mp h1, Path.balanced_fill h2 ?_⟩,
            Path.toList_congr π (h4.trans (hflip _)),
            Frame.of_fill.mpr (h5.of_toList (hflip _))⟩
          rwa [h3, hh]
        · rw [if_neg hs0] at h3 ⊢
          obtain ⟨m', t'', g1, g2, g3, g4⟩ := ih h1 h2 (h := h + 2) (by omega) hπ hδ'
            (by simpa using hn)
          refine ⟨m', t'', g1, g2, g3.trans (Path.toList_congr π (h4.trans (hflip _))),
            Frame.of_fill.mpr (Frame.of_toList ?_ (hflip (-d.sgn)))⟩
          exact h5.trans (g4.of_toList h4)
    · -- the node was level: it leans the other way now and keeps its height
      have hsh : s.height = h + 1 := by cases d <;> simp at hbal <;> omega
      obtain ⟨hz2, hf⟩ := zip_setBalance (-d.sgn) hz'
      refine ⟨_, Path.fill π (dnode d (-d.sgn) t e s), ?_, ⟨zip_fill.mp hz2, ?_⟩, ?_,
        Frame.of_fill.mpr hf⟩
      · rw [if_neg (by omega), if_pos rfl]
      · refine Path.balanced_fill ((balanced_dnode ..).mpr ⟨ht, hs, ?_, ?_, ?_⟩) ?_
        · rw [hh, hsh]; push_cast; ring
        · cases d <;> simp
        · cases d <;> simp
        · rw [height_dnode, hh, hsh, max_eq_right (by omega)]
          rwa [hsh, max_self] at hπ
      · exact Path.toList_congr π (toList_dnode_bal ..)
    · -- this side was higher: the node is level now and has lost a level
      have hsh : s.height = h := by cases d <;> simp at hbal <;> omega
      obtain ⟨hz2, hf⟩ := zip_setBalance 0 hz'
      have hbal2 : (dnode d 0 t e s).Balanced :=
        (balanced_dnode ..).mpr ⟨ht, hs, by rw [hh, hsh]; simp, by omega, by omega⟩
      obtain ⟨m', t', h1, h2, h3, h4⟩ := ih hz2 hbal2 (h := h + 1)
        (by rw [height_dnode, hh, hsh, max_self])
        (by rwa [hsh, max_eq_left (by omega)] at hπ) hδ' (by simpa using hn)
      refine ⟨m', t', ?_, h2, ?_, Frame.of_fill.mpr (hf.trans (h4.of_toList ?_))⟩
      · rw [if_neg (by omega), if_neg (by omega), ← h1]
      · rw [h3]; exact Path.toList_congr π (toList_dnode_bal ..)
      · exact toList_dnode_bal ..

/-! ### Taking a node out -/

/-- Recording another datum. -/
lemma zip_setData {d : Dir} {b : ℤ} {c s : T} {p v w : ℕ}
    (hz : Zip m tr π (dnode d b c (p, v) s)) :
    Zip (setData m p w) tr π (dnode d b c (p, w) s) ∧
    Frame tr (nodes π (dnode d b c (p, v) s)) m (setData m p w) := by
  obtain ⟨ht, hp, hs⟩ := hz
  obtain ⟨p0, p1, p2, p3, p4, hc, hs'⟩ := repr_dnode.mp ht
  have hs2 : Sep tr (p :: (addrs c ++ addrs s ++ pathAddrs π)) := by
    refine hs.perm (List.perm_iff_count.mpr fun a => ?_)
    have h1 := List.perm_iff_count.mp (addrs_dnode_perm d b c (p, v) s) a
    simp only [List.count_append, List.count_cons] at h1 ⊢
    omega
  obtain ⟨hpw, htr⟩ := hs2
  have hp' := (List.pairwise_cons.mp hpw).1
  have hne : ∀ a, a ≠ p + 3 → setData m p w a = m a := fun a ha => set_ne m _ ha
  have hw : ∀ L, (∀ x ∈ L, x ∈ addrs c ++ addrs s ++ pathAddrs π) → ∀ a, Within a L →
      setData m p w a = m a := by
    rintro L hL a ⟨x, hx, h1, h2⟩
    refine hne a ?_
    rcases hp' x (hL x hx) with h | h <;> omega
  have ho := off_lt d
  refine ⟨⟨repr_dnode.mpr ⟨p0, (hne _ (by omega)).trans p1, (hne _ (by omega)).trans p2,
    (hne _ (by omega)).trans p3, set_self .., hc.congr (hw _ fun x hx => ?_),
    hs'.congr (hw _ fun x hx => ?_)⟩, ?_, ?_⟩, ?_⟩
  · simp [hx]
  · simp [hx]
  · rw [root_dnode] at hp ⊢
    refine hp.congr (hne _ ?_) (hw _ fun x hx => by simp [hx])
    exact fun h => htr ⟨p, by simp, by omega, by omega⟩
  · refine hs.perm (List.Perm.append_left _ ?_)
    exact (addrs_dnode_perm d b c (p, v) s).trans (addrs_dnode_perm d b c (p, w) s).symm
  · intro a h1 h2
    exact hne a fun h => h2 ⟨p, by simp, by omega, by omega⟩

/-- A node without a left child is replaced by its right one. -/
lemma zip_unlink {b : ℤ} {r : T} {q w : ℕ} (hz : Zip m tr π (.node b .nil (q, w) r)) :
    let m' := (adopt m (root r) (parent π)).setPtr (linkCell tr π) (root r)
    Zip m' tr π r ∧ Frame tr (nodes π (.node b .nil (q, w) r)) m m' := by
  intro m'
  obtain ⟨ht, hp, hs⟩ := hz
  obtain ⟨q0, q1, q2, q3, q4, -, hr⟩ := ht
  have hs2 : Sep tr (addrs r ++ pathAddrs π) := by
    refine ⟨?_, fun hw => hs.2 (hw.mono fun x hx => ?_)⟩
    · have := List.pairwise_append.mp hs.1
      simp only [addrs, List.nil_append, List.pairwise_cons, List.mem_cons] at this
      exact List.pairwise_append.mpr ⟨this.2.1.2, this.1,
        fun x hx y hy => (this.2.2 y hy x (.inr hx)).symm⟩
    · simp only [addrs, List.nil_append, List.mem_append, List.mem_cons] at hx ⊢
      tauto
  obtain ⟨hpw, htr⟩ := hs2
  obtain ⟨hr1, hπ1, hrπ⟩ := List.pairwise_append.mp hpw
  have hm : ∀ a, m' a = if a = linkCell tr π then 8 * root r
      else if root r ≠ 0 ∧ a = root r then 8 * parent π + revBalanceFactor r.bal else m a :=
    fun a => by simp only [m', setPtr_apply, adopt_apply hr]
  have hlr : ∀ a, Within a (addrs r) → a ≠ linkCell tr π := by
    rintro a ha rfl
    rcases linkCell_within tr π with h | h
    · have hw : Within _ (addrs r ++ pathAddrs π) := ha.mono (by simp)
      exact htr (h ▸ hw)
    · exact within_ne ha h hrπ rfl
  refine ⟨⟨hr.reparent hr1 (fun h => ?_) fun a ha h => ?_, ?_, ?_⟩, ?_⟩
  · rw [hm, if_neg (hlr _ (within_root h)), if_pos ⟨h, rfl⟩]
  · rw [hm, if_neg (hlr a ha), if_neg (by tauto)]
  · refine path_relink hp ⟨hπ1, fun h => htr (h.mono (by simp))⟩ (by rw [hm, if_pos rfl])
      fun a ha hl => ?_
    rw [hm, if_neg hl, if_neg]
    rintro ⟨h, rfl⟩
    rcases ha with h' | ha
    · have hw : Within _ (addrs r ++ pathAddrs π) := (within_root h).mono (by simp)
      exact htr (h' ▸ hw)
    · exact within_ne (within_root h) ha hrπ rfl
  · exact Sep.perm ⟨hpw, htr⟩ List.perm_append_comm
  · intro a h1 h2
    rw [hm, if_neg, if_neg]
    · rintro ⟨h, rfl⟩
      exact h2 ((within_root h).mono fun x hx => by simp [nodes, addrs, hx])
    · rintro rfl
      rcases linkCell_within tr π with h | h
      · exact h1 h
      · exact h2 (h.mono (by simp))

/-- The leftmost node of a subtree. -/
lemma leftmost_spec {n par : ℕ} {t : T} (h : Repr m t par) (h0 : t ≠ .nil)
    (hn : t.height ≤ n) :
    ∃ ρ b q w r, leftmost m n (root t) = some q ∧ t = Path.fill ρ (.node b .nil (q, w) r) ∧
      Path.before ρ = [] := by
  induction t generalizing n par with
  | nil => exact absurd rfl h0
  | node b l e r ihl ihr =>
    obtain ⟨n, rfl⟩ : ∃ k, n = k + 1 := ⟨n - 1, by simp only [height] at hn; omega⟩
    obtain ⟨p, v⟩ := e
    obtain ⟨p0, p1, p2, p3, p4, hl, hr⟩ := h
    have hc : child m .L p = root l := ptr_of_eq p2
    by_cases hl0 : l = .nil
    · subst hl0
      exact ⟨[], b, p, v, r, by simp [leftmost, root, hc], rfl, rfl⟩
    · obtain ⟨ρ, b', q, w, r', h1, h2, h3⟩ := ihl (n := n) hl hl0
        (by simp only [height] at hn; omega)
      have hr0 : root l ≠ 0 := fun h => hl0 (height_eq_zero_of_root hl h)
      refine ⟨ρ ++ [⟨.L, b, (p, v), r⟩], b', q, w, r', ?_, ?_, ?_⟩
      · rw [leftmost, root, hc, if_neg hr0]
        exact h1
      · rw [Path.fill_append, ← h2]; rfl
      · rw [Path.before_append, h3]; rfl

/-- The code's way of unlinking the node `q` without a left child, from the side the node is
on, and the way back up from there. -/
lemma unlink_spec {n : ℕ} {s : Step Entry} {b : ℤ} {q w : ℕ} {r : T}
    (hz : Zip m tr (s :: π) (.node b .nil (q, w) r)) (hr : r.Balanced)
    (hπ : Path.Balanced (s :: π) (r.height + 1)) (hn : π.length + 1 < n) :
    ∃ m' t', (if child (adopt m (root r) s.val.1) .L s.val.1 = q then
          deleteFix tr n (setChild (adopt m (root r) s.val.1) .L s.val.1 (root r)) s.val.1 (-1)
        else deleteFix tr n (setChild (adopt m (root r) s.val.1) .R s.val.1 (root r))
          s.val.1 1) = some m' ∧
      Holds m' tr t' ∧ t'.toList = (Path.fill (s :: π) r).toList ∧
      Frame tr (nodes (s :: π) (.node b .nil (q, w) r)) m m' := by
  have hq0 : q ≠ 0 := hz.tree.1
  have hleft := eq_left_child hz hq0
  have hchild : child (adopt m (root r) s.val.1) .L s.val.1 = child m .L s.val.1 := by
    simp only [child, Mem.ptr]
    rw [adopt_apply hz.tree.2.2.2.2.2.2, if_neg]
    rintro ⟨h, he⟩
    have hap := (List.pairwise_append.mp hz.sep.1).2.2 s.val.1 (by simp) (root r)
      (by simp [addrs, root_mem_addrs h])
    simp only [off_L] at he
    rcases hap with h | h <;> omega
  obtain ⟨hz', hf⟩ := zip_unlink hz
  simp only [parent_cons, linkCell] at hz' hf
  obtain ⟨m', t', h1, h2, h3, h4⟩ := deleteFix_spec (n := n) (δ := side (s :: π)) hz' hr rfl hπ
    (fun _ => rfl) (by simpa using hn)
  rw [parent_cons, side_cons] at h1
  refine ⟨m', t', ?_, h2, h3, hf.trans (h4.mono fun x hx => ?_)⟩
  · rw [← h1, hchild]
    obtain ⟨d, b', e, c⟩ := s
    simp only [root] at hleft
    cases d
    · rw [if_pos (hleft.mpr rfl).symm]; rfl
    · rw [if_neg fun h => absurd (hleft.mp h.symm) (by simp)]; rfl
  · simp only [nodes, addrs, List.mem_append, List.mem_cons] at hx ⊢
    tauto

/-- What deleting the node `p` does to the in-order values when the node `q` is the one taken
out: `p` goes, or it receives the data of a neighbour, which goes instead. -/
inductive Taken (p q : ℕ) : List Entry → List Entry → Prop
  | self (L₁ L₂ : List Entry) (v : ℕ) (h : q = p) : Taken p q (L₁ ++ (p, v) :: L₂) (L₁ ++ L₂)
  | next (L₁ L₂ : List Entry) (v w : ℕ) :
    Taken p q (L₁ ++ (p, v) :: (q, w) :: L₂) (L₁ ++ (p, w) :: L₂)
  | prev (L₁ L₂ : List Entry) (v w : ℕ) :
    Taken p q (L₁ ++ (q, w) :: (p, v) :: L₂) (L₁ ++ (p, w) :: L₂)

namespace Taken

variable {p q : ℕ} {L L' : List Entry}

/-- The node taken out is the only one that goes. -/
lemma fst (h : Taken p q L L') : (L.map Prod.fst).Perm (q :: L'.map Prod.fst) := by
  refine List.perm_iff_count.mpr fun a => ?_
  rcases h with ⟨_, _, _, rfl⟩ | _ | _ <;>
  · simp only [List.map_append, List.map_cons, List.count_append, List.count_cons]
    omega

/-- The data of `p` are the only ones that go, and the others keep their order. -/
lemma split (h : Taken p q L L') : ∃ v A B, (p, v) ∈ L ∧ L.map Prod.snd = A ++ v :: B ∧
    L'.map Prod.snd = A ++ B := by
  rcases h with ⟨L₁, L₂, v, rfl⟩ | ⟨L₁, L₂, v, w⟩ | ⟨L₁, L₂, v, w⟩
  · exact ⟨v, L₁.map Prod.snd, L₂.map Prod.snd, by simp⟩
  · exact ⟨v, L₁.map Prod.snd, w :: L₂.map Prod.snd, by simp⟩
  · exact ⟨v, L₁.map Prod.snd ++ [w], L₂.map Prod.snd, by simp⟩

lemma snd (h : Taken p q L L') :
    ∃ v, (p, v) ∈ L ∧ (L.map Prod.snd).Perm (v :: L'.map Prod.snd) := by
  obtain ⟨v, A, B, hv, h1, h2⟩ := h.split
  refine ⟨v, hv, ?_⟩
  rw [h1, h2]
  exact List.perm_middle

lemma sublist (h : Taken p q L L') : (L'.map Prod.snd).Sublist (L.map Prod.snd) := by
  obtain ⟨v, A, B, -, h1, h2⟩ := h.split
  rw [h1, h2]
  exact (List.sublist_cons_self v B).append_left A

end Taken

/-- A step of a path with another datum. -/
def redata (s : Step Entry) (w : ℕ) : Step Entry := ⟨s.dir, s.bal, (s.val.1, w), s.sib⟩

lemma parent_redata (ρ π : P) (s : Step Entry) (w : ℕ) :
    parent (ρ ++ redata s w :: π) = parent (ρ ++ s :: π) := by
  cases ρ with
  | nil => rfl
  | cons a ρ => rfl

lemma pathAddrs_redata (ρ π : P) (s : Step Entry) (w : ℕ) :
    pathAddrs (ρ ++ redata s w :: π) = pathAddrs (ρ ++ s :: π) := by
  induction ρ with
  | nil => rfl
  | cons a ρ ih => rw [List.cons_append, List.cons_append, pathAddrs, pathAddrs, ih]

/-- The deletion of a node with a child: the data of the node `q`, down on side `d`, are moved
up and `q` is unlinked. -/
lemma moveUp_spec {n : ℕ} {ρ : P} {s : Step Entry} {b : ℤ} {q w : ℕ} {r : T}
    (hz : Zip m tr (ρ ++ s :: π) (.node b .nil (q, w) r)) (hr : r.Balanced)
    (hπ : Path.Balanced (ρ ++ s :: π) (r.height + 1)) (hn : (ρ ++ s :: π).length < n) :
    ∃ m' t', (let parent := getParent m q
        let m := setData m s.val.1 (data m q)
        let ch := child m .R q
        let m := adopt m ch parent
        if child m .L parent = q then
          (deleteFix tr n (setChild m .L parent ch) parent (-1)).map fun m => (m, q)
        else (deleteFix tr n (setChild m .R parent ch) parent 1).map fun m => (m, q)) =
          some (m', q) ∧
      Holds m' tr t' ∧ t'.toList = (Path.fill (ρ ++ redata s w :: π) r).toList ∧
      Frame tr (nodes (ρ ++ s :: π) (.node b .nil (q, w) r)) m m' := by
  obtain ⟨d, bs, ⟨p, v⟩, c⟩ := s
  have hq := hz.tree
  obtain ⟨q0, q1, q2, q3, q4, -⟩ := hq
  -- the data are moved up
  have hfill : ∀ u (t : T), Path.fill (ρ ++ ⟨d, bs, (p, u), c⟩ :: π) t =
      Path.fill π (dnode d bs (Path.fill ρ t) (p, u) c) := fun u t => by
    rw [Path.fill_append]; rfl
  have hz1 := zip_fill.mpr (hfill v _ ▸ zip_fill.mp hz)
  obtain ⟨hz2, hf2⟩ := zip_setData (w := w) hz1
  have hz3 := zip_fill.mpr ((hfill w (.node b .nil (q, w) r)).symm ▸ zip_fill.mp hz2)
  change Zip (setData m p w) tr (ρ ++ redata ⟨d, bs, (p, v), c⟩ w :: π) _ at hz3
  have hnodes := pathAddrs_redata ρ π ⟨d, bs, (p, v), c⟩ w
  have hpar' := parent_redata ρ π ⟨d, bs, (p, v), c⟩ w
  have hbal : Path.Balanced (ρ ++ redata ⟨d, bs, (p, v), c⟩ w :: π) (r.height + 1) :=
    Path.balanced_set_val hπ
  obtain ⟨s', π', hs'⟩ : ∃ s' π', ρ ++ redata ⟨d, bs, (p, v), c⟩ w :: π = s' :: π' := by
    cases ρ with
    | nil => exact ⟨_, _, rfl⟩
    | cons a ρ => exact ⟨_, _, rfl⟩
  have hpar : getParent m q = s'.val.1 := by
    rw [getParent_of_eq q0 q1, ← hpar', hs', parent_cons]
  have hR : child (setData m p w) .R q = root r := ptr_of_eq hz3.tree.2.2.2.1
  rw [hs'] at hbal
  have hlen : π'.length + 1 < n := by
    have := congrArg List.length hs'
    simp only [List.length_append, List.length_cons] at this hn
    omega
  rw [hs'] at hz3
  obtain ⟨m', t', h1, h2, h3, h4⟩ := unlink_spec hz3 hr hbal hlen
  refine ⟨m', t', ?_, h2, ?_, ?_⟩
  · simp only [hpar, data, q4, hR]
    rw [← apply_ite (Option.map fun m => (m, q)), h1]
    rfl
  · rw [h3, ← hs']
  · refine (hf2.mono fun x hx => ?_).trans (h4.mono fun x hx => ?_)
    · rw [(nodes_fill_perm' ..).mem_iff] at hx ⊢
      rwa [hfill]
    · rwa [← hs', nodes, hnodes] at hx

/-- The deletion of a node with a child, in terms of the whole tree. -/
lemma moveUp_fill {ρ : P} {s : Step Entry} {b : ℤ} {q w : ℕ} {r t : T} (h : Holds m tr t)
    (ht : t = Path.fill (ρ ++ s :: π) (.node b .nil (q, w) r)) (hn : t.height + 1 < fuel) :
    ∃ m' t', (let parent := getParent m q
        let m := setData m s.val.1 (data m q)
        let ch := child m .R q
        let m := adopt m ch parent
        if child m .L parent = q then
          (deleteFix tr fuel (setChild m .L parent ch) parent (-1)).map fun m => (m, q)
        else (deleteFix tr fuel (setChild m .R parent ch) parent 1).map fun m => (m, q)) =
          some (m', q) ∧
      Holds m' tr t' ∧ t'.toList = (Path.fill (ρ ++ redata s w :: π) r).toList ∧
      Frame tr (addrs t) m m' := by
  obtain ⟨⟨-, hr, -⟩, hπ⟩ := Path.balanced_of_fill (ht ▸ h.bal)
  have hlen := Path.length_le (ρ ++ s :: π) (.node b .nil (q, w) r)
  rw [← ht] at hlen
  simp only [height, Nat.zero_max] at hπ hlen
  obtain ⟨m', t', h1, h2, h3, h4⟩ := moveUp_spec (n := fuel) (zip_fill.mpr (ht ▸ h.zip)) hr hπ
    (by omega)
  refine ⟨m', t', h1, h2, h3, h4.mono fun x hx => ?_⟩
  rw [ht]
  exact (nodes_fill_perm' ..).mem_iff.mp hx

/-- The deletion of a leaf. -/
lemma leaf_spec {b : ℤ} {p v : ℕ} {t : T} (h : Holds m tr t)
    (ht : t = Path.fill π (.node b .nil (p, v) .nil)) (hn : t.height + 1 < fuel) :
    ∃ m' t', (let parent := getParent m p
        if parent = 0 then some (m.setPtr tr 0, p)
        else if child m .L parent = p then
          (deleteFix tr fuel (setChild m .L parent 0) parent (-1)).map fun m => (m, p)
        else if child m .R parent = p then
          (deleteFix tr fuel (setChild m .R parent 0) parent 1).map fun m => (m, p)
        else (deleteFix tr fuel m parent 0).map fun m => (m, p)) = some (m', p) ∧
      Holds m' tr t' ∧ t'.toList = (Path.fill π .nil).toList ∧ Frame tr (addrs t) m m' := by
  have hz := zip_fill.mpr (ht ▸ h.zip)
  obtain ⟨-, hπ⟩ := Path.balanced_of_fill (ht ▸ h.bal)
  have hlen := Path.length_le π (.node b .nil (p, v) .nil)
  rw [← ht] at hlen
  simp only [height, Nat.zero_max, Nat.zero_add] at hπ hlen
  have hp0 := hz.tree.1
  have hpar : getParent m p = parent π := getParent_of_eq hp0 hz.tree.2.1
  cases π with
  | nil =>
    -- the only node
    have hsub : ∀ a, a ≠ tr → (m.setPtr tr 0) a = m a := fun a ha => setPtr_ne m 0 ha
    refine ⟨m.setPtr tr 0, .nil, by simp [hpar], ⟨⟨trivial, ?_, ?_⟩, trivial⟩, rfl,
      fun a h1 h2 => hsub a h1⟩
    · exact setPtr_self m tr 0
    · exact sep_nil tr
  | cons s π =>
    have hs0 : s.val.1 ≠ 0 := hz.path.1
    obtain ⟨m', t', h1, h2, h3, h4⟩ := unlink_spec (n := fuel) hz trivial hπ
      (by simp only [List.length_cons] at hlen; omega)
    refine ⟨m', t', ?_, h2, h3, h4.mono fun x hx => ?_⟩
    · have hleft := eq_left_child hz hp0
      have hlink := hz.path.2.2.1
      simp only [root, adopt, if_true] at h1 hleft hlink
      simp only [hpar, parent_cons, hs0, if_false]
      obtain ⟨d, b', e, c⟩ := s
      by_cases hd : child m .L e.1 = p
      · rw [if_pos hd] at h1 ⊢
        rw [h1]; rfl
      · have hdR : d = .R := by
          cases d
          · exact absurd (hleft.mpr rfl).symm hd
          · rfl
        have hR : child m .R e.1 = p := by rw [hdR] at hlink; exact ptr_of_eq hlink
        rw [if_neg hd] at h1 ⊢
        rw [if_pos hR, h1]; rfl
    · rw [ht]
      exact (nodes_fill_perm' ..).mem_iff.mp hx

/-- **Deletion** of a node of the tree: it is taken out of the in-order values, the tree is
balanced again, and only its nodes and the root pointer are written. -/
theorem avlDeleteNode_spec {t l r : T} {b : ℤ} {p v : ℕ} (h : Holds m tr t)
    (ht : t = Path.fill π (.node b l (p, v) r)) (hn : t.height + 1 < fuel) :
    ∃ m' q t', avlDeleteNode m tr p = some (m', q) ∧ Holds m' tr t' ∧
      Taken p q t.toList t'.toList ∧ Frame tr (addrs t) m m' := by
  have hz := zip_fill.mpr (ht ▸ h.zip)
  obtain ⟨p0, p1, p2, p3, p4, hl, hr⟩ := hz.tree
  obtain ⟨⟨hbl, hbr, hbal, hb1, hb2⟩, hπ⟩ := Path.balanced_of_fill (ht ▸ h.bal)
  have hlen := Path.length_le π (.node b l (p, v) r)
  rw [← ht] at hlen
  simp only [height] at hlen
  have htr0 : m.ptr tr ≠ 0 := by
    rw [ptr_of_eq h.zip.path]
    intro h0
    rw [height_eq_zero_of_root h.zip.tree h0, height_nil] at hlen
    omega
  have hL : child m .L p = root l := ptr_of_eq p2
  have hR : child m .R p = root r := ptr_of_eq p3
  simp only [avlDeleteNode, htr0, p0, or_self, if_false, hL, hR]
  by_cases hr0 : r = .nil
  · subst hr0
    rw [root_nil, if_neg (by simp), Option.bind_some]
    by_cases hl0 : l = .nil
    · -- a leaf
      subst hl0
      obtain ⟨m', t', h1, h2, h3, h4⟩ := leaf_spec h ht hn
      refine ⟨m', p, t', ?_, h2, ?_, h4⟩
      · rw [root_nil, if_neg (by simp)]
        exact h1
      · rw [h3, ht, Path.toList_fill, Path.toList_fill]
        simpa [toList] using Taken.self (Path.before π) (Path.after π) v rfl
    · -- the left child is a leaf and takes the node's place
      obtain ⟨b', l', ⟨q, w⟩, r', rfl⟩ : ∃ b' l' e r', l = .node b' l' e r' := by
        cases l with
        | nil => exact absurd rfl hl0
        | node b' l' e r' => exact ⟨_, _, _, _, rfl⟩
      have hleaf : l' = .nil ∧ r' = .nil := by
        simp only [height] at hbal
        exact ⟨height_eq_zero.mp (by omega), height_eq_zero.mp (by omega)⟩
      obtain ⟨rfl, rfl⟩ := hleaf
      obtain ⟨m', t', h1, h2, h3, h4⟩ := moveUp_fill (ρ := []) (s := ⟨.L, b, (p, v), .nil⟩) h ht hn
      refine ⟨m', q, t', ?_, h2, ?_, h4⟩
      · rw [root, if_pos hl.1]
        exact h1
      · rw [h3, ht, Path.toList_fill, Path.toList_fill]
        simpa [toList, redata, Path.before, Path.after] using
          Taken.prev (p := p) (q := q) (Path.before π) (Path.after π) v w
  · -- the successor takes the node's place
    have hrr : root r ≠ 0 := fun h => hr0 (height_eq_zero_of_root hr h)
    obtain ⟨ρ, b', q, w, r', h1, h2, h3⟩ := leftmost_spec (n := fuel) hr hr0 (by omega)
    have ht' : t = Path.fill (ρ ++ ⟨.R, b, (p, v), l⟩ :: π) (.node b' .nil (q, w) r') := by
      rw [ht, h2, Path.fill_append]; rfl
    have hq := zip_fill.mpr (ht' ▸ h.zip)
    have hq0 : q ≠ 0 := hq.tree.1
    obtain ⟨m', t', g1, g2, g3, g4⟩ := moveUp_fill h ht' hn
    refine ⟨m', q, t', ?_, g2, ?_, g4⟩
    · rw [if_pos hrr, h1, Option.bind_some, if_pos hq0]
      exact g1
    · rw [g3, ht', Path.toList_fill, Path.toList_fill]
      simpa [toList, redata, Path.before, Path.after, Path.before_append, Path.after_append,
        h3] using Taken.next (p := p) (q := q) (Path.before π ++ l.toList)
          (r'.toList ++ Path.after ρ ++ Path.after π) v w

end LispMachine.AvlDelete
