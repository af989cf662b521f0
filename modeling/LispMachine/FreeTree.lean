import LispMachine.AvlTree
import LispMachine.Lib.Segments

/-!
The tree of free blocks: its nodes stand at the start of the blocks, their data are the
lengths of the blocks, and the order is that of the addresses.
-/

namespace LispMachine.FreeTree

open LispMachine.Memory LispMachine.AvlCode LispMachine.AvlRepr LispMachine.AvlRotate
open LispMachine.AvlInsert LispMachine.AvlDelete LispMachine.AvlTree
open LispMachine.Lib.BalTree LispMachine.Lib.BalTree.BTree LispMachine.Lib.Segments

variable {m : Mem} {tr : ℕ} {π : P}

/-! ### Moving a node -/

lemma path_root {s : Step Entry} {c : ℕ} (h : PathRepr m tr (s :: π) c) :
    m.ptr tr ∈ pathAddrs (s :: π) := by
  induction π generalizing s c with
  | nil =>
    obtain ⟨-, -, -, -, -, -, h⟩ := h
    have : m.ptr tr = s.val.1 := ptr_of_eq h
    simp [this]
  | cons s' π ih =>
    obtain ⟨-, -, -, -, -, -, h⟩ := h
    have := ih h
    rw [pathAddrs_cons]
    simp only [List.mem_cons, List.mem_append]
    exact .inr (.inr this)

/-- The part of `avl_move` between the two links. -/
def moveNode (m : Mem) (dest src : ℕ) : Mem :=
  let left := child m .L src
  let m := adopt m left dest
  let right := child m .R src
  let m := adopt m right dest
  let m := m.set dest (m src)
  let m := setChild m .L dest left
  let m := setChild m .R dest right
  setData m dest (data m src)

lemma moveNode_apply {b : ℤ} {l r : T} {p w q par : ℕ} (ht : Repr m (.node b l (p, w) r) par)
    (hs : (q :: addrs (.node b l (p, w) r)).Pairwise Apart) (a : ℕ) :
    moveNode m q p a =
      if a = q + 3 then w else if a = q + 2 then 8 * root r else if a = q + 1 then 8 * root l
      else if a = q then 8 * par + revBalanceFactor b
      else if root r ≠ 0 ∧ a = root r then 8 * q + revBalanceFactor r.bal
      else if root l ≠ 0 ∧ a = root l then 8 * q + revBalanceFactor l.bal else m a := by
  obtain ⟨p0, p1, p2, p3, p4, hl, hr⟩ := ht
  simp only [addrs, List.pairwise_cons, List.pairwise_append, List.mem_append,
    List.mem_cons] at hs
  obtain ⟨hq, hp, -, -, hlr⟩ := hs
  have hpq := hq p (.inl rfl)
  unfold Apart at hpq
  have hL : child m .L p = root l := ptr_of_eq p2
  have h1 := adopt_apply hl q
  have hpl : root l ≠ 0 → p + 4 ≤ root l ∨ root l + 4 ≤ p := fun h =>
    hp _ (.inl (root_mem_addrs h))
  have hpr : root r ≠ 0 → p + 4 ≤ root r ∨ root r + 4 ≤ p := fun h =>
    hp _ (.inr (root_mem_addrs h))
  have hr1 : Repr (adopt m (root l) q) r p := hr.congr fun x hx => by
    rw [h1, if_neg]
    rintro ⟨h, rfl⟩
    exact within_ne (within_root h) hx hlr rfl
  have hR : child (adopt m (root l) q) .R p = root r := by
    refine ptr_of_eq ?_
    rw [h1, if_neg (by rintro ⟨h, h'⟩; have := hpl h; simp only [off_R] at h'; omega)]
    exact p3
  have h2 := adopt_apply hr1 q
  have hne : ∀ i < 4, adopt (adopt m (root l) q) (root r) q (p + i) = m (p + i) := fun i hi => by
    rw [h2, if_neg (by rintro ⟨h, h'⟩; have := hpr h; omega), h1,
      if_neg (by rintro ⟨h, h'⟩; have := hpl h; omega)]
  have hP := (hne 0 (by omega)).trans p1
  have hD := (hne 3 (by omega)).trans p4
  rw [Nat.add_zero] at hP
  -- the node's data are read after its other words have been copied
  have hD' : ((((adopt (adopt m (root l) q) (root r) q).set q
      (adopt (adopt m (root l) q) (root r) q p)).setPtr (q + 1) (root l)).setPtr (q + 2)
        (root r)) (p + 3) = w := by
    rw [setPtr_ne _ _ (by omega), setPtr_ne _ _ (by omega), set_ne _ _ (by omega), hD]
  simp only [moveNode, hL, hR, setChild, setData, off_L, off_R, data, hD']
  rw [hP]
  simp only [set_apply, setPtr_apply, h2, h1]

/-- The cells outside the node moved, its new place and the links of its children. -/
lemma moveNode_out {b : ℤ} {l r : T} {p w q par a : ℕ} (ht : Repr m (.node b l (p, w) r) par)
    (hs : (q :: addrs (.node b l (p, w) r)).Pairwise Apart)
    (ha : ¬ Within a (q :: (addrs l ++ addrs r))) : moveNode m q p a = m a := by
  have hq : a < q ∨ q + 4 ≤ a := by
    by_contra h
    exact ha ⟨q, by simp, by omega, by omega⟩
  rw [moveNode_apply ht hs, if_neg (by omega), if_neg (by omega), if_neg (by omega),
    if_neg (by omega), if_neg, if_neg]
  · rintro ⟨h, rfl⟩
    exact ha ((within_root h).mono (by simp))
  · rintro ⟨h, rfl⟩
    exact ha ((within_root h).mono fun x hx => by simp [hx])

/-- `avl_move` copies the node and redirects the link to it. -/
lemma avlMove_eq {b : ℤ} {l r : T} {p w q : ℕ} (hz : Zip m tr π (.node b l (p, w) r))
    (hsep : Sep tr (q :: nodes π (.node b l (p, w) r))) (a : ℕ) :
    avlMove m tr q p a = (moveNode m q p).setPtr (linkCell tr π) q a := by
  obtain ⟨hpw, htr⟩ := hsep
  obtain ⟨ht, hp, -⟩ := hz
  have hq := (List.pairwise_cons.mp hpw).1
  have hs : (q :: addrs (.node b l (p, w) r)).Pairwise Apart :=
    hpw.sublist (List.Sublist.cons_cons _ (List.sublist_append_right ..))
  have hqp : q ≠ p := fun h => by
    rcases hq p (by simp [addrs]) with h' | h' <;> omega
  have hpar : getParent m p = parent π := getParent_of_eq ht.1 ht.2.1
  have htr1 : ¬ Within tr (q :: (addrs l ++ addrs r)) := fun hw => htr (hw.mono fun x hx => by
    simp only [List.mem_cons, List.mem_append, nodes, addrs] at hx ⊢
    tauto)
  cases π with
  | nil =>
    have h1 : (moveNode m q p).ptr tr = p := by
      rw [Mem.ptr, moveNode_out ht hs htr1]
      exact ptr_of_eq hp
    simp only [avlMove, hqp, if_false, hpar, parent_nil, if_true, linkCell]
    change (if (moveNode m q p).ptr tr = p then (moveNode m q p).setPtr tr q
      else moveNode m q p) a = _
    rw [if_pos h1]
  | cons s π =>
    have hs0 : s.val.1 ≠ 0 := hp.1
    have hpath : ∀ x ∈ pathAddrs (s :: π), ∀ y ∈ addrs (.node b l (p, w) r), Apart x y :=
      (List.pairwise_append.mp (List.pairwise_cons.mp hpw).2).2.2
    have hpn : p ∉ pathAddrs (s :: π) := fun h => by
      rcases hpath p h p (by simp [addrs]) with h | h <;> omega
    have hlink : Within (linkCell tr (s :: π)) (pathAddrs (s :: π)) :=
      (linkCell_within tr (s :: π)).resolve_left fun h => htr (h ▸ by
        have := off_le s.dir
        exact ⟨s.val.1, by simp, by simp [linkCell], by simp only [linkCell]; omega⟩)
    have hre : replaceChild m s.val.1 p q = m.setPtr (linkCell tr (s :: π)) q := by
      have h := relink_eq hp ht.1 hpn q
      rwa [relink, parent_cons, if_neg hs0] at h
    have hnot : ¬ Within (linkCell tr (s :: π)) (q :: addrs (.node b l (p, w) r)) := fun hw => by
      refine within_ne hlink hw (fun x hx y hy => ?_) rfl
      rcases List.mem_cons.mp hy with rfl | hy
      · exact (hq x (List.mem_append_left _ hx)).symm
      · exact hpath x hx y hy
    have ht1 : Repr (m.setPtr (linkCell tr (s :: π)) q) (.node b l (p, w) r) (parent (s :: π)) :=
      ht.congr fun x hx => setPtr_ne _ _ fun h => hnot (h ▸ hx.mono (by simp))
    -- the link lies outside what else is written
    have hcomm : moveNode (m.setPtr (linkCell tr (s :: π)) q) q p =
        (moveNode m q p).setPtr (linkCell tr (s :: π)) q := by
      funext x
      by_cases hx : x = linkCell tr (s :: π)
      · rw [hx, setPtr_self, moveNode_out ht1 hs fun hw => hnot (hw.mono fun x hx => ?_),
          setPtr_self]
        simp only [List.mem_cons, List.mem_append, addrs] at hx ⊢
        tauto
      · rw [setPtr_ne _ _ hx, moveNode_apply ht1 hs, moveNode_apply ht hs, setPtr_ne _ _ hx]
    have hne : (moveNode (m.setPtr (linkCell tr (s :: π)) q) q p).ptr tr ≠ p := by
      have h1 := path_root hp
      have htl : tr ≠ linkCell tr (s :: π) := fun h => by
        rw [← h] at hlink
        exact htr (hlink.mono fun x hx => List.mem_cons_of_mem _ (List.mem_append_left _ hx))
      rw [Mem.ptr, moveNode_out ht1 hs htr1, setPtr_ne _ _ htl]
      exact fun h => hpn (h ▸ h1)
    simp only [avlMove, hqp, if_false, hpar, parent_cons, hs0, hre]
    change (if (moveNode (m.setPtr (linkCell tr (s :: π)) q) q p).ptr tr = p then _
      else moveNode (m.setPtr (linkCell tr (s :: π)) q) q p) a = _
    rw [if_neg hne, hcomm]

/-- **Moving a node**: the tree is as before, with the node `p` at `q`. -/
lemma zip_move {b : ℤ} {l r : T} {p w q : ℕ} (hz : Zip m tr π (.node b l (p, w) r))
    (h0 : q ≠ 0) (hsep : Sep tr (q :: nodes π (.node b l (p, w) r))) :
    Zip (avlMove m tr q p) tr π (.node b l (q, w) r) ∧
      Frame tr (q :: nodes π (.node b l (p, w) r)) m (avlMove m tr q p) := by
  have hm : ∀ a, avlMove m tr q p a = _ := fun a => avlMove_eq hz hsep a
  simp only [setPtr_apply] at hm
  obtain ⟨hpw, htr⟩ := hsep
  obtain ⟨ht, hp, -⟩ := hz
  have hs : (q :: addrs (.node b l (p, w) r)).Pairwise Apart :=
    hpw.sublist (List.Sublist.cons_cons _ (List.sublist_append_right ..))
  have happ := moveNode_apply ht hs
  have hout := fun a => moveNode_out (a := a) ht hs
  obtain ⟨p0, p1, p2, p3, p4, hl, hr⟩ := ht
  have hsep' : Sep tr (q :: (addrs l ++ addrs r) ++ pathAddrs π) := by
    refine ⟨?_, fun hw => htr (hw.mono fun x hx => ?_)⟩
    · have h1 : (p :: (q :: (addrs l ++ addrs r) ++ pathAddrs π)).Perm
          (q :: nodes π (.node b l (p, w) r)) := List.perm_iff_count.mpr fun a => by
        simp only [nodes, addrs, List.count_cons, List.count_append, List.cons_append]
        omega
      exact (List.pairwise_cons.mp ((h1.pairwise_iff Apart.symm).mpr hpw)).2
    · simp only [List.mem_cons, List.mem_append, nodes, addrs] at hx ⊢
      tauto
  obtain ⟨hpw', htr'⟩ := hsep'
  obtain ⟨hqlr, hπ, hπq⟩ := List.pairwise_append.mp hpw'
  obtain ⟨hq, hlr⟩ := List.pairwise_cons.mp hqlr
  obtain ⟨hl1, hr1, hlr⟩ := List.pairwise_append.mp hlr
  -- the link to the node lies outside the nodes below
  have hlink : ∀ a, Within a (q :: (addrs l ++ addrs r)) → a ≠ linkCell tr π := by
    rintro a ha rfl
    rcases linkCell_within tr π with h | h
    · rw [h] at ha
      exact htr' (ha.mono fun x hx => List.mem_append_left _ hx)
    · exact within_ne ha h hπq rfl
  have hqi : ∀ i < 4, Within (q + i) (q :: (addrs l ++ addrs r)) :=
    fun i hi => ⟨q, by simp, by omega, by omega⟩
  have hsub : ∀ a t, Within a (addrs t) → (∀ x ∈ addrs t, x ∈ addrs l ++ addrs r) →
      avlMove m tr q p a = if root r ≠ 0 ∧ a = root r then 8 * q + revBalanceFactor r.bal
        else if root l ≠ 0 ∧ a = root l then 8 * q + revBalanceFactor l.bal else m a := by
    intro a t ha ht
    have h1 : a < q ∨ q + 4 ≤ a := by
      obtain ⟨x, hx, h1, h2⟩ := ha
      rcases hq x (ht x hx) with h | h <;> omega
    rw [hm, if_neg (hlink a (ha.mono fun x hx => List.mem_cons_of_mem _ (ht x hx))), happ,
      if_neg (by omega), if_neg (by omega), if_neg (by omega), if_neg (by omega)]
  have hrl : ∀ a, Within a (addrs l) → ¬ (root r ≠ 0 ∧ a = root r) := by
    rintro a ha ⟨h, rfl⟩
    exact within_ne ha (within_root h) hlr rfl
  have hll : ∀ a, Within a (addrs r) → ¬ (root l ≠ 0 ∧ a = root l) := by
    rintro a ha ⟨h, rfl⟩
    exact within_ne (within_root h) ha hlr rfl
  refine ⟨⟨⟨h0, ?_, ?_, ?_, ?_, ?_, ?_⟩, ?_, ?_⟩, ?_⟩
  · rw [hm, if_neg (hlink q (hqi 0 (by omega))), happ, if_neg (by omega), if_neg (by omega),
      if_neg (by omega), if_pos rfl]
  · rw [hm, if_neg (hlink _ (hqi 1 (by omega))), happ, if_neg (by omega), if_neg (by omega),
      if_pos rfl]
  · rw [hm, if_neg (hlink _ (hqi 2 (by omega))), happ, if_neg (by omega), if_pos rfl]
  · rw [hm, if_neg (hlink _ (hqi 3 (by omega))), happ, if_pos rfl]
  · refine hl.reparent hl1 (fun h => ?_) fun a ha h => ?_
    · rw [hsub _ l (within_root h) (fun x hx => List.mem_append_left _ hx),
        if_neg (hrl _ (within_root h)), if_pos ⟨h, rfl⟩]
    · rw [hsub a l ha (fun x hx => List.mem_append_left _ hx), if_neg (hrl a ha),
        if_neg (by tauto)]
  · refine hr.reparent hr1 (fun h => ?_) fun a ha h => ?_
    · rw [hsub _ r (within_root h) (fun x hx => List.mem_append_right _ hx), if_pos ⟨h, rfl⟩]
    · rw [hsub a r ha (fun x hx => List.mem_append_right _ hx), if_neg (by tauto),
        if_neg (hll a ha)]
  · refine path_relink hp ⟨hπ, fun h => htr' (h.mono fun x hx => List.mem_append_right _ hx)⟩
      (by rw [hm, if_pos rfl]; rfl) fun a ha hla => ?_
    rw [hm, if_neg hla, hout a fun hw => ?_]
    rcases ha with rfl | ha
    · exact htr' (hw.mono fun x hx => List.mem_append_left _ hx)
    · exact within_ne hw ha hπq rfl
  · exact Sep.perm ⟨hpw', htr'⟩ List.perm_append_comm
  · intro a h1 h2
    have hsub' : (q :: (addrs l ++ addrs r)) ⊆ q :: nodes π (.node b l (p, w) r) := by
      intro x hx
      simp only [List.mem_cons, List.mem_append, nodes, addrs] at hx ⊢
      tauto
    rw [hm, if_neg, hout a fun hw => h2 (hw.mono hsub')]
    rintro rfl
    rcases linkCell_within tr π with h | h
    · exact h1 h
    · exact h2 (h.mono fun x hx => List.mem_cons_of_mem _ (List.mem_append_left _ hx))

lemma nodup_toList {t : T} (h : Holds m tr t) : t.toList.Nodup := by
  have h1 : (addrs t).Pairwise Apart := by simpa using h.zip.sep.1
  have h2 := List.pairwise_map.mp (((addrs_perm t).pairwise_iff Apart.symm).mp h1)
  refine h2.imp fun {a b} hab he => ?_
  subst he
  rcases hab with h | h <;> omega

/-- Moving a node, in terms of the in-order values. -/
lemma move_spec {t : T} {L₁ L₂ : List Entry} {p q w : ℕ} (h : Holds m tr t)
    (ht : t.toList = L₁ ++ (p, w) :: L₂) (h0 : q ≠ 0) (hsep : Sep tr (q :: addrs t)) :
    ∃ t', Holds (avlMove m tr q p) tr t' ∧ t'.toList = L₁ ++ (q, w) :: L₂ ∧
      Frame tr (q :: addrs t) m (avlMove m tr q p) := by
  have hmem : (p, w) ∈ t.toList := by simp [ht]
  obtain ⟨π, b, l, r, hfill⟩ := Path.exists_fill hmem
  have hnd := nodup_toList h
  rw [ht] at hnd
  have hz := zip_fill.mpr (hfill ▸ h.zip)
  have hperm : (addrs t).Perm (nodes π (.node b l (p, w) r)) := by
    rw [hfill]; exact (nodes_fill_perm' ..).symm
  obtain ⟨h1, h2⟩ := zip_move hz h0 (hsep.perm (hperm.cons q))
  obtain ⟨hb1, hb2⟩ := Path.balanced_of_fill (hfill ▸ h.bal)
  refine ⟨_, ⟨zip_fill.mp h1, Path.balanced_fill hb1 hb2⟩, ?_,
    h2.mono (hperm.symm.cons q).subset⟩
  -- the place of the node among the values is the same
  have hL : L₁ ++ (p, w) :: L₂ =
      (Path.before π ++ l.toList) ++ (p, w) :: (r.toList ++ Path.after π) := by
    rw [← ht, hfill, Path.toList_fill]
    simp [toList]
  have hnot := List.nodup_middle.mp hnd
  simp only [List.nodup_cons, List.mem_append, not_or] at hnot
  obtain ⟨rfl, -, rfl⟩ := (List.append_cons_inj_of_notMem hnot.1.1 hnot.1.2).mp hL
  rw [Path.toList_fill]
  simp [toList]

/-- **Taking a node out** of the tree, the node itself and not one of its neighbours. -/
theorem avlRemove_spec {t : T} {p v : ℕ} (h : Holds m tr t) (hp : (p, v) ∈ t.toList)
    (hn : t.height + 1 < fuel) :
    ∃ m' t' L₁ L₂ w, avlRemove m tr p = some m' ∧ Holds m' tr t' ∧
      t.toList = L₁ ++ (p, w) :: L₂ ∧ t'.toList = L₁ ++ L₂ ∧ Frame tr (addrs t) m m' := by
  obtain ⟨π, b, l, r, hfill⟩ := Path.exists_fill hp
  obtain ⟨m₁, q, t₁, h1, h2, h3, h4⟩ := avlDeleteNode_spec h hfill hn
  have hnodes : (q :: addrs t₁).Perm (addrs t) :=
    ((addrs_perm t₁).cons q).trans (h3.fst.symm.trans (addrs_perm t).symm)
  have hsep : Sep tr (q :: addrs t₁) :=
    (show Sep tr (addrs t) by simpa using h.zip.sep).perm hnodes.symm
  have hq0 : q ≠ 0 := by
    have hq := (addrs_perm t).subset (hnodes.subset List.mem_cons_self)
    obtain ⟨e, he, rfl⟩ := List.mem_map.mp hq
    exact (data_of_mem h.zip.tree he).1
  rw [avlRemove, h1, Option.map_some]
  generalize hL : t.toList = L at h3
  generalize hL' : t₁.toList = L' at h3
  cases h3 with
  | self L₁ L₂ w hqp =>
    subst hqp
    exact ⟨m₁, t₁, L₁, L₂, w, by simp [avlMove], h2, rfl, hL', h4⟩
  | next L₁ L₂ v' w =>
    obtain ⟨t', g1, g2, g3⟩ := move_spec h2 hL' hq0 hsep
    exact ⟨_, t', L₁, (q, w) :: L₂, v', rfl, g1, rfl, g2, h4.trans (g3.mono hnodes.subset)⟩
  | prev L₁ L₂ v' w =>
    obtain ⟨t', g1, g2, g3⟩ := move_spec h2 hL' hq0 hsep
    exact ⟨_, t', L₁ ++ [(q, w)], L₂, v', rfl, g1, by simp, by simpa using g2,
      h4.trans (g3.mono hnodes.subset)⟩

/-! ### The order of the addresses -/

/-- The blocks are in the order of their addresses. -/
def Rising (L : List Entry) : Prop := L.Pairwise fun s t => s.1 < t.1

/-- How a block that starts at `x` compares with the others. -/
def addrOrder (x : ℕ) (e : Entry) : ℤ := if e.1 < x then 1 else if e.1 = x then 0 else -1

lemma Rising.falling {L : List Entry} (h : Rising L) (x : ℕ) : Falling (addrOrder x) L := by
  refine ⟨h.imp fun {a b} hab => ?_, fun e _ => ?_⟩
  · unfold addrOrder
    split_ifs <;> omega
  · unfold addrOrder IsBal
    split_ifs
    all_goals simp

/-- **Putting a node in**, in the order of the addresses. -/
theorem insertMem_spec {t : T} {nd v : ℕ} (h : Holds m tr t) (hr : Rising t.toList)
    (h0 : nd ≠ 0) (hsep : Sep tr (nd :: addrs t)) (hn : t.height + 1 < fuel) :
    ∃ m' t', avlInsertNode avlMemCmp m tr nd v = some (m', 0) ∧ Holds m' tr t' ∧
      t'.toList.Perm ((nd, v) :: t.toList) ∧ Rising t'.toList ∧
      Frame tr (nd :: addrs t) m m' := by
  have hap := (List.pairwise_cons.mp hsep.1).1
  rcases avlInsertNode_spec (v := v) h h0 hsep (c := addrOrder nd)
    (fun e _ => (rfl : avlMemCmp _ e.1 nd = addrOrder nd e))
    (hr.falling nd) hn with ⟨⟨e, he, he0⟩, -⟩ | ⟨m', t', L₁, L₂, h1, h2, h3, h4, h5, h6, h7⟩
  · -- no node stands at the place of the new one
    have hmem := (addrs_perm t).symm.subset (List.mem_map_of_mem (f := Prod.fst) he)
    have heq : e.1 = nd := by
      unfold addrOrder at he0
      split_ifs at he0 <;> omega
    rcases hap e.1 hmem with h | h <;> omega
  · refine ⟨m', t', h1, h2, ?_, ?_, h7⟩
    · rw [h3, h4]
      exact List.perm_middle
    · unfold Rising at hr ⊢
      rw [h3, List.pairwise_append] at hr
      obtain ⟨hr1, hr2, hr3⟩ := hr
      rw [h4, List.pairwise_append, List.pairwise_cons]
      have hlt : ∀ a ∈ L₁, a.1 < nd := fun a ha => by
        have := h5 a ha
        grind [addrOrder]
      have hgt : ∀ a ∈ L₂, nd < a.1 := fun a ha => by
        have := h6 a ha
        grind [addrOrder]
      refine ⟨hr1, ⟨hgt, hr2⟩, fun a ha x hx => ?_⟩
      rcases List.mem_cons.mp hx with rfl | hx
      · exact hlt a ha
      · exact hr3 a ha x hx

/-! ### The search for a block that is large enough -/

lemma avlMinGe_spec {n par d : ℕ} {t : T} (h : Repr m t par) (hn : t.height < n) :
    ∃ p, avlMinGe m n (root t) d = some p ∧
      (p = 0 ∧ (∀ e ∈ t.toList, e.2 < d) ∨ ∃ v, (p, v) ∈ t.toList ∧ d ≤ v) := by
  induction t generalizing n par with
  | nil =>
    obtain ⟨n, rfl⟩ : ∃ k, n = k + 1 := ⟨n - 1, by omega⟩
    exact ⟨0, by simp [avlMinGe], .inl ⟨rfl, by simp⟩⟩
  | node b l e r ihl ihr =>
    obtain ⟨n, rfl⟩ : ∃ k, n = k + 1 := ⟨n - 1, by omega⟩
    obtain ⟨p, v⟩ := e
    obtain ⟨p0, p1, p2, p3, p4, hl, hr⟩ := h
    simp only [height] at hn
    have hL : child m .L p = root l := ptr_of_eq p2
    have hR : child m .R p = root r := ptr_of_eq p3
    obtain ⟨x, hx, hx'⟩ := ihl (n := n) hl (by omega)
    obtain ⟨y, hy, hy'⟩ := ihr (n := n) hr (by omega)
    rw [avlMinGe, root, if_neg p0, hL, hR, hx, hy, Option.bind_some, Option.bind_some, data, p4]
    rcases hx' with ⟨rfl, hx'⟩ | ⟨u, hu, hd⟩
    · rcases hy' with ⟨rfl, hy'⟩ | ⟨u, hu, hd⟩
      · by_cases hd : d ≤ v
        · exact ⟨p, by simp [hd], .inr ⟨v, by simp [toList], hd⟩⟩
        · refine ⟨0, by simp [hd], .inl ⟨rfl, fun e he => ?_⟩⟩
          simp only [toList, List.mem_append, List.mem_cons] at he
          rcases he with he | rfl | he
          · exact hx' e he
          · exact not_le.mp hd
          · exact hy' e he
      · have hy0 := (data_of_mem hr hu).1
        exact ⟨y, by simp [hy0], .inr ⟨u, by simp [toList, hu], hd⟩⟩
    · have hx0 := (data_of_mem hl hu).1
      exact ⟨x, by simp [hx0], .inr ⟨u, by simp [toList, hu], hd⟩⟩

end LispMachine.FreeTree
