import LispMachine.AvlRepr

/-!
What the small tree operations do to a tree held in memory: reading and writing a balance,
giving a subtree a new parent, redirecting a link, and the single and double rotations.
-/

namespace LispMachine.AvlRotate

open LispMachine.Memory LispMachine.AvlCode LispMachine.AvlRepr LispMachine.Lib.BalTree
open LispMachine.Lib.BalTree.BTree

/-- The balances a tag can record. -/
def IsBal (b : ℤ) : Prop := b = -1 ∨ b = 0 ∨ b = 1

lemma isBal_of_le {b : ℤ} (h1 : -1 ≤ b) (h2 : b ≤ 1) : IsBal b := by
  unfold IsBal; omega

lemma isBal_neg {d : Dir} {b : ℤ} (hb : IsBal b) :
    b = -d.sgn ∨ b = 0 ∨ b = d.sgn := by
  unfold IsBal at hb
  cases d <;> simp <;> omega

lemma isBal_of_balanced {t : T} (h : t.Balanced) : IsBal t.bal := by
  cases t with
  | nil => simp [IsBal]
  | node b l e r => exact isBal_of_le h.2.2.2.1 h.2.2.2.2

lemma getParent_of_eq {m : Mem} {p par : ℕ} {b : ℤ} (h0 : p ≠ 0)
    (h : m p = 8 * par + revBalanceFactor b) : getParent m p = par := by
  have := revBalanceFactor_lt b
  simp only [getParent, h0, if_false, h]
  omega

lemma getBalanceFactor_of_eq {m : Mem} {p par : ℕ} {b : ℤ} (h0 : p ≠ 0)
    (h : m p = 8 * par + revBalanceFactor b) : getBalanceFactor m p = revBalanceFactor b := by
  have := revBalanceFactor_lt b
  simp only [getBalanceFactor, h0, if_false, h, and_three]
  omega

lemma balanceFactor_of_eq {m : Mem} {p par : ℕ} {b : ℤ} (h0 : p ≠ 0) (hb : IsBal b)
    (h : m p = 8 * par + revBalanceFactor b) : balanceFactor m p = b := by
  rw [balanceFactor, getBalanceFactor_of_eq h0 h]
  rcases hb with rfl | rfl | rfl <;> simp [h0, revBalanceFactor]

/-- The recorded balance of a subtree, as the code reads it. -/
lemma balanceFactor_root {m : Mem} {t : T} {par : ℕ} (h : Repr m t par) (hb : IsBal t.bal) :
    balanceFactor m (root t) = t.bal := by
  cases t with
  | nil => simp [balanceFactor]
  | node b l e r => exact balanceFactor_of_eq h.1 hb h.2.1

lemma setBalanceFactor_of_eq {m : Mem} {p par : ℕ} {b b' : ℤ} (h0 : p ≠ 0)
    (h : m p = 8 * par + revBalanceFactor b) :
    setBalanceFactor m p b' = m.set p (8 * par + revBalanceFactor b') := by
  have hlt := revBalanceFactor_lt b
  have hk : m p / 4 * 4 = 4 * (2 * par) := by omega
  rw [setBalanceFactor, if_neg h0, hk, or_tag (revBalanceFactor_lt b')]
  congr 1
  ring

lemma adopt_apply {m : Mem} {t : T} {par : ℕ} (h : Repr m t par) (par' a : ℕ) :
    adopt m (root t) par' a =
      if root t ≠ 0 ∧ a = root t then 8 * par' + revBalanceFactor t.bal else m a := by
  cases t with
  | nil => simp [adopt]
  | node b l e r =>
    obtain ⟨h0, h1, -⟩ := h
    rw [adopt, root, if_neg h0, getBalanceFactor_of_eq h0 h1,
      tagged_eq (revBalanceFactor_lt b), set_apply]
    simp [h0, bal]

/-- Redirecting the link that leads to `old`, from the parent or else from `tr`. -/
def relink (m : Mem) (tr parent old new : ℕ) : Mem :=
  if parent = 0 then m.setPtr tr new else replaceChild m parent old new

/-- The cell of the link into the hole of a path. -/
def linkCell (tr : ℕ) : P → ℕ
  | [] => tr
  | s :: _ => s.val.1 + off s.dir

lemma relink_eq {m : Mem} {tr : ℕ} {π : P} {c : ℕ} (h : PathRepr m tr π c) (hc : c ≠ 0)
    (hn : c ∉ pathAddrs π) (c' : ℕ) : relink m tr (parent π) c c' = m.setPtr (linkCell tr π) c' := by
  cases π with
  | nil => rfl
  | cons s π =>
    obtain ⟨d, b, ⟨p, v⟩, s⟩ := s
    obtain ⟨h0, h1, h2, h3, -⟩ := h
    have hs : root s ≠ c := fun he =>
      hn (by simp [← he, root_mem_addrs (by rw [he]; exact hc)])
    simp only [relink, parent_cons, h0, if_false, replaceChild, linkCell]
    cases d <;>
      simp_all [child, setChild, Mem.ptr]

lemma path_relink {m m' : Mem} {tr : ℕ} {π : P} {c c' : ℕ} (h : PathRepr m tr π c)
    (hs : Sep tr (pathAddrs π)) (hl : m' (linkCell tr π) = 8 * c')
    (hf : ∀ a, a = tr ∨ Within a (pathAddrs π) → a ≠ linkCell tr π → m' a = m a) :
    PathRepr m' tr π c' := by
  cases π with
  | nil => exact hl
  | cons s π =>
    obtain ⟨d, b, ⟨p, v⟩, s⟩ := s
    obtain ⟨h0, h1, h2, h3, h4, h5, h6⟩ := h
    obtain ⟨hp, ht⟩ := hs
    simp only [pathAddrs_cons, List.pairwise_cons, List.mem_append] at hp
    simp only [linkCell] at hl hf
    have ho := off_lt d
    have hc : ∀ i < 4, i ≠ off d → m' (p + i) = m (p + i) := fun i hi hi0 =>
      hf _ (.inr ⟨p, by simp, by omega, by omega⟩) (by omega)
    have htr : tr ≠ p + off d := fun he => ht ⟨p, by simp, by omega, by omega⟩
    have hsub : ∀ a L, (∀ x ∈ L, x ∈ addrs s ∨ x ∈ pathAddrs π) → Within a L →
        m' a = m a := by
      rintro a L hL ⟨x, hx, h⟩
      have hx' := hL x hx
      refine hf a (.inr ⟨x, by simp [hx'], h⟩) ?_
      rcases hp.1 x hx' with h' | h' <;> omega
    exact ⟨h0, (hc 0 (by omega) (by omega)).trans h1, hl,
      (hc _ (by omega) (by omega)).trans h3, (hc 3 (by omega) (by omega)).trans h4,
      h5.congr fun a ha => hsub a _ (fun x hx => .inl hx) ha,
      h6.congr (hf tr (.inl rfl) htr) fun a ha => hsub a _ (fun x hx => .inr hx) ha⟩

lemma within_ne {a b : ℕ} {L L' : List ℕ} (ha : Within a L) (hb : Within b L')
    (h : ∀ x ∈ L, ∀ y ∈ L', Apart x y) : a ≠ b := by
  obtain ⟨x, hx, h1, h2⟩ := ha
  obtain ⟨y, hy, h3, h4⟩ := hb
  rcases h x hx y hy with h | h <;> omega

lemma within_root {t : T} (h : root t ≠ 0) : Within (root t) (addrs t) :=
  ⟨root t, root_mem_addrs h, le_rfl, by omega⟩

/-! ### The single rotation -/

/-- What the nodes of the two levels a rotation works on have to do with each other. -/
lemma sep_two {tr : ℕ} {π : P} {d d' : Dir} {b bq : ℤ} {C B A : T} {p q v w : ℕ}
    (h : Sep tr (nodes π (dnode d b (dnode d' bq C (q, w) B) (p, v) A))) :
    Sep tr (p :: q :: (addrs B ++ (addrs C ++ (addrs A ++ pathAddrs π)))) := by
  refine h.perm (List.perm_iff_count.mpr fun a => ?_)
  have h1 := List.perm_iff_count.mp (addrs_dnode_perm d b (dnode d' bq C (q, w) B) (p, v) A) a
  have h2 := List.perm_iff_count.mp (addrs_dnode_perm d' bq C (q, w) B) a
  simp only [nodes, List.count_append, List.count_cons] at h1 h2 ⊢
  omega

lemma linkCell_within (tr : ℕ) (π : P) :
    linkCell tr π = tr ∨ Within (linkCell tr π) (pathAddrs π) := by
  cases π with
  | nil => exact .inl rfl
  | cons s π =>
    have := off_le s.dir
    exact .inr ⟨s.val.1, by simp, by simp [linkCell], by simp only [linkCell]; omega⟩

variable {m : Mem} {tr : ℕ} {π : P} {d : Dir} {b bq : ℤ} {C B A : T} {p q v w : ℕ}

/-- The memory a rotation leaves behind. -/
def rotated (m : Mem) (tr : ℕ) (π : P) (d : Dir) (bq : ℤ) (rb p q : ℕ) : Mem :=
  let m := ((adopt m rb p).setPtr (linkCell tr π) q).setPtr (p + off d) rb
  ((m.setPtr (q + off d.flip) p).set p
    (8 * q + revBalanceFactor (if bq = 0 then d.sgn else 0))).set q
    (8 * parent π + revBalanceFactor (if bq = 0 then -d.sgn else 0))

lemma avlRotate_eq (hz : Zip m tr π (dnode d b (dnode d bq C (q, w) B) (p, v) A))
    (hq : IsBal bq) : avlRotate d m tr p = (rotated m tr π d bq (root B) p q, q) := by
  obtain ⟨ht, hp, hs⟩ := hz
  obtain ⟨p0, p1, p2, p3, p4, hQ, hA⟩ := repr_dnode.mp ht
  obtain ⟨q0, q1, q2, q3, q4, hC, hB⟩ := repr_dnode.mp hQ
  obtain ⟨hpw, htr⟩ := sep_two hs
  rw [root_dnode] at p2 hp
  simp only [List.pairwise_cons, List.pairwise_append, List.mem_cons, List.mem_append] at hpw
  obtain ⟨hp', hq', hBp, -, hBo⟩ := hpw
  have ho := off_lt d
  have hpq : p + 4 ≤ q ∨ q + 4 ≤ p := hp' q (.inl rfl)
  have hBr : root B ≠ 0 → (p + 4 ≤ root B ∨ root B + 4 ≤ p) ∧ (q + 4 ≤ root B ∨ root B + 4 ≤ q) :=
    fun h => ⟨hp' _ (.inr (.inl (root_mem_addrs h))), hq' _ (.inl (root_mem_addrs h))⟩
  have e1 : child m d p = q := ptr_of_eq p2
  have e2 : child m d.flip q = root B := ptr_of_eq q3
  have ha := adopt_apply hB p
  have e3 : getParent (adopt m (root B) p) p = parent π := by
    refine getParent_of_eq p0 (b := b) ?_
    rw [ha, if_neg (by rintro ⟨h, h'⟩; have := hBr h; omega), p1]
  have hlp : linkCell tr π ≠ q ∧ linkCell tr π ≠ q + off d.flip := by
    rcases linkCell_within tr π with h | ⟨x, hx, h1, h2⟩
    · rw [h]
      constructor <;> exact fun he => htr ⟨q, by simp, by omega, by omega⟩
    · rcases hq' x (by simp [hx]) with h | h <;> omega
  have hPR : PathRepr (adopt m (root B) p) tr π p := by
    refine hp.congr ?_ ?_
    · rw [ha, if_neg]
      rintro ⟨h, rfl⟩
      exact htr ⟨root B, by simp [root_mem_addrs h], by omega, by omega⟩
    · rintro a ⟨x, hx, h1, h2⟩
      rw [ha, if_neg]
      rintro ⟨h, rfl⟩
      rcases hBo _ (root_mem_addrs h) x (.inr (.inr hx)) with h | h <;> omega
  have hpn : p ∉ pathAddrs π := fun h => by
    rcases hp' p (by simp [h]) with h | h <;> omega
  have e4 := relink_eq hPR p0 hpn q
  simp only [relink] at e4
  have e5 : balanceFactor ((adopt m (root B) p).setPtr (linkCell tr π) q) q = bq := by
    refine @balanceFactor_of_eq _ q p bq q0 hq ?_
    rw [setPtr_ne _ _ (by omega), ha, if_neg (by rintro ⟨h, h'⟩; have := hBr h; omega), q1]
  have e6 : child ((adopt m (root B) p).setPtr (linkCell tr π) q) d.flip q = root B := by
    refine ptr_of_eq ?_
    rw [setPtr_ne _ _ (by omega), ha, if_neg (by rintro ⟨h, h'⟩; have := hBr h; omega), q3]
  simp only [avlRotate, p0, if_false, e1, q0, e2, e3, e4, e5, e6, setChild,
    tagged_eq (revBalanceFactor_lt _), rotated]
  by_cases h : bq = 0 <;> simp [h]

/-- **The single rotation.** -/
theorem zip_rotate (hz : Zip m tr π (dnode d b (dnode d bq C (q, w) B) (p, v) A))
    (hq : IsBal bq) :
    (avlRotate d m tr p).2 = q ∧
    Zip (avlRotate d m tr p).1 tr π
      (dnode d (if bq = 0 then -d.sgn else 0) C (q, w)
        (dnode d (if bq = 0 then d.sgn else 0) B (p, v) A)) ∧
    Frame tr (nodes π (dnode d b (dnode d bq C (q, w) B) (p, v) A)) m
      (avlRotate d m tr p).1 := by
  rw [avlRotate_eq hz hq]
  dsimp only
  obtain ⟨ht, hp, hs⟩ := hz
  obtain ⟨p0, p1, p2, p3, p4, hQ, hA⟩ := repr_dnode.mp ht
  obtain ⟨q0, q1, q2, q3, q4, hC, hB⟩ := repr_dnode.mp hQ
  rw [root_dnode] at p2 hp
  have hs2 := sep_two hs
  obtain ⟨hpw, htr⟩ := hs2
  simp only [List.pairwise_cons, List.pairwise_append, List.mem_cons, List.mem_append] at hpw
  obtain ⟨hp', hq', hBp, ⟨hCp, ⟨hAp, hπp, hAo⟩, hCo⟩, hBo⟩ := hpw
  have ho := off_lt d
  have ha := adopt_apply hB p
  -- every cell the rotation writes
  have hcell : ∀ a, rotated m tr π d bq (root B) p q a =
      if a = q then 8 * parent π + revBalanceFactor (if bq = 0 then -d.sgn else 0)
      else if a = p then 8 * q + revBalanceFactor (if bq = 0 then d.sgn else 0)
      else if a = q + off d.flip then 8 * p
      else if a = p + off d then 8 * root B
      else if a = linkCell tr π then 8 * q
      else if root B ≠ 0 ∧ a = root B then 8 * p + revBalanceFactor B.bal
      else m a := fun a => by
    simp only [rotated, set_apply, setPtr_apply, ha]
  have hpq : Apart p q := hp' q (.inl rfl)
  have hpc : ∀ L, (∀ x ∈ L, x ∈ addrs B ∨ x ∈ addrs C ∨ x ∈ addrs A ∨ x ∈ pathAddrs π) →
      ∀ a, Within a L ∨ a = tr → (a < p ∨ p + 4 ≤ a) ∧ (a < q ∨ q + 4 ≤ a) := by
    rintro L hL a (⟨x, hx, h1, h2⟩ | rfl)
    · have h3 := hp' x (.inr (hL x hx))
      have h4 := hq' x (hL x hx)
      unfold Apart at h3 h4
      omega
    · constructor <;> by_contra h
      · exact htr ⟨p, by simp, by omega, by omega⟩
      · exact htr ⟨q, by simp, by omega, by omega⟩
  have hlink : ∀ L, (∀ x ∈ L, ∀ y ∈ pathAddrs π, Apart x y) → ¬ Within tr L → ∀ a, Within a L →
      a ≠ linkCell tr π := by
    rintro L hL htL a ha rfl
    rcases linkCell_within tr π with h | h
    · exact htL (h ▸ ha)
    · exact within_ne ha h hL rfl
  have htrL : ∀ L, (∀ x ∈ L, x ∈ addrs B ∨ x ∈ addrs C ∨ x ∈ addrs A ∨ x ∈ pathAddrs π) →
      ¬ Within tr L := fun L hL hw => htr (hw.mono fun x hx => by simp [hL x hx])
  refine ⟨rfl, ⟨?tree, ?path, ?sep⟩, ?frame⟩
  case tree =>
    have hC' : Repr (rotated m tr π d bq (root B) p q) C q := by
      refine hC.congr fun a hw => ?_
      have h1 := hpc _ (fun x hx => .inr (.inl hx)) a (.inl hw)
      have h2 := hlink _ (fun x hx y hy => hCo x hx y (.inr hy))
        (htrL _ fun x hx => .inr (.inl hx)) a hw
      have h3 : root B ≠ 0 → a ≠ root B := fun h =>
        within_ne hw (within_root h) fun x hx y hy => (hBo y hy x (.inl hx)).symm
      rw [hcell]
      simp only [h2, if_false]
      rw [if_neg (by omega), if_neg (by omega), if_neg (by omega), if_neg (by omega),
        if_neg (by tauto)]
    have hA' : Repr (rotated m tr π d bq (root B) p q) A p := by
      refine hA.congr fun a hw => ?_
      have h1 := hpc _ (fun x hx => .inr (.inr (.inl hx))) a (.inl hw)
      have h2 := hlink _ hAo (htrL _ fun x hx => .inr (.inr (.inl hx))) a hw
      have h3 : root B ≠ 0 → a ≠ root B := fun h =>
        within_ne hw (within_root h) fun x hx y hy => (hBo y hy x (.inr (.inl hx))).symm
      rw [hcell]
      simp only [h2, if_false]
      rw [if_neg (by omega), if_neg (by omega), if_neg (by omega), if_neg (by omega),
        if_neg (by tauto)]
    have hB' : Repr (rotated m tr π d bq (root B) p q) B p := by
      have hne : ∀ a, Within a (addrs B) → rotated m tr π d bq (root B) p q a =
          if root B ≠ 0 ∧ a = root B then 8 * p + revBalanceFactor B.bal else m a := by
        intro a hw
        have h1 := hpc _ (fun x hx => .inl hx) a (.inl hw)
        have h2 := hlink _ (fun x hx y hy => hBo x hx y (.inr (.inr hy)))
          (htrL _ fun x hx => .inl hx) a hw
        rw [hcell]
        simp only [h2, if_false]
        rw [if_neg (by omega), if_neg (by omega), if_neg (by omega), if_neg (by omega)]
      refine Repr.reparent hB hBp (fun h => ?_) fun a hw h => ?_
      · rw [hne _ (within_root h), if_pos ⟨h, rfl⟩]
      · rw [hne _ hw, if_neg (by tauto)]
    have hl : ∀ i < 4, p + i ≠ linkCell tr π ∧ q + i ≠ linkCell tr π := by
      intro i hi
      have := hpc (pathAddrs π) (fun x hx => .inr (.inr (.inr hx))) (linkCell tr π)
        ((linkCell_within tr π).symm)
      omega
    have hr : ∀ i < 4, root B ≠ 0 → p + i ≠ root B ∧ q + i ≠ root B := by
      intro i hi h
      have := hpc (addrs B) (fun x hx => .inl hx) _ (.inl (within_root h))
      omega
    unfold Apart at hpq
    have key : ∀ x i, (x = p ∨ x = q) → i < 4 → x + i ≠ q → x + i ≠ p →
        x + i ≠ q + off d.flip → x + i ≠ p + off d →
        rotated m tr π d bq (root B) p q (x + i) = m (x + i) := by
      intro x i hx hi n1 n2 n3 n4
      have n5 := hl i hi
      have n6 := hr i hi
      rw [hcell, if_neg n1, if_neg n2, if_neg n3, if_neg n4, if_neg, if_neg]
      · rintro ⟨h, h'⟩
        rcases hx with rfl | rfl
        · exact (n6 h).1 h'
        · exact (n6 h).2 h'
      · rcases hx with rfl | rfl
        · exact n5.1
        · exact n5.2
    refine repr_dnode.mpr ⟨q0, ?_, ?_, ?_, ?_, hC', repr_dnode.mpr ⟨p0, ?_, ?_, ?_, ?_, hB', hA'⟩⟩
    · rw [hcell, if_pos rfl]
    · rw [key q _ (.inr rfl) (by omega) (by omega) (by omega) (by omega) (by omega), q2]
    · rw [root_dnode, hcell, if_neg (by omega), if_neg (by omega), if_pos rfl]
    · rw [key q 3 (.inr rfl) (by omega) (by omega) (by omega) (by omega) (by omega), q4]
    · rw [hcell, if_neg (by omega), if_pos rfl]
    · rw [hcell, if_neg (by omega), if_neg (by omega), if_neg (by omega), if_pos rfl]
    · rw [key p _ (.inl rfl) (by omega) (by omega) (by omega) (by omega) (by omega), p3]
    · rw [key p 3 (.inl rfl) (by omega) (by omega) (by omega) (by omega) (by omega), p4]
  case path =>
    have hneq : ∀ a, a = tr ∨ Within a (pathAddrs π) → a ≠ linkCell tr π →
        rotated m tr π d bq (root B) p q a = m a := by
      intro a hw hl
      have h1 := hpc (pathAddrs π) (fun x hx => .inr (.inr (.inr hx))) a hw.symm
      rw [hcell, if_neg (by omega), if_neg (by omega), if_neg (by omega), if_neg (by omega),
        if_neg hl, if_neg]
      rintro ⟨h, rfl⟩
      rcases hw with h' | hw
      · exact htrL (addrs B) (fun x hx => .inl hx) (h' ▸ within_root h)
      · exact within_ne (within_root h) hw (fun x hx y hy => hBo x hx y (.inr (.inr hy))) rfl
    refine path_relink hp ⟨hπp, htrL _ fun x hx => .inr (.inr (.inr hx))⟩ ?_ hneq
    have h1 := hpc (pathAddrs π) (fun x hx => .inr (.inr (.inr hx))) _ (linkCell_within tr π).symm
    rw [hcell, if_neg (by omega), if_neg (by omega), if_neg (by omega), if_neg (by omega),
      if_pos rfl, root_dnode]
  case sep =>
    refine hs.perm (List.Perm.append_left _ ?_)
    refine (addrs_perm _).trans (List.Perm.trans ?_ (addrs_perm _).symm)
    rw [toList_rotate]
  case frame =>
    intro a htr' hw
    have hout : ∀ x ∈ p :: q :: (addrs B ++ (addrs C ++ (addrs A ++ pathAddrs π))),
        a < x ∨ x + 4 ≤ a := by
      intro x hx
      by_contra h
      refine hw ⟨x, ?_, by omega, by omega⟩
      simp only [List.mem_cons, List.mem_append] at hx
      simp only [nodes, List.mem_append, mem_addrs_dnode]
      tauto
    have hp1 := hout p (by simp)
    have hq1 := hout q (by simp)
    rw [hcell, if_neg (by omega), if_neg (by omega), if_neg (by omega), if_neg (by omega),
      if_neg, if_neg]
    · rintro ⟨h, rfl⟩
      have := hout (root B) (by simp [root_mem_addrs h])
      omega
    · rintro rfl
      rcases linkCell_within tr π with h | ⟨x, hx, h1, h2⟩
      · exact htr' h
      · have := hout x (by simp [hx])
        omega

/-! ### The double rotation -/

/-- Recording a balance. -/
lemma zip_setBalance (b' : ℤ) {c s : T} (hz : Zip m tr π (dnode d b c (p, v) s)) :
    Zip (setBalanceFactor m p b') tr π (dnode d b' c (p, v) s) ∧
    Frame tr (nodes π (dnode d b c (p, v) s)) m (setBalanceFactor m p b') := by
  obtain ⟨ht, hp, hs⟩ := hz
  obtain ⟨p0, p1, p2, p3, p4, hc, hs'⟩ := repr_dnode.mp ht
  have hs2 : Sep tr (p :: (addrs c ++ addrs s ++ pathAddrs π)) := by
    refine hs.perm (List.perm_iff_count.mpr fun a => ?_)
    have h1 := List.perm_iff_count.mp (addrs_dnode_perm d b c (p, v) s) a
    simp only [List.count_append, List.count_cons] at h1 ⊢
    omega
  obtain ⟨hpw, htr⟩ := hs2
  have hp' := (List.pairwise_cons.mp hpw).1
  rw [setBalanceFactor_of_eq p0 p1]
  have hne : ∀ a, a ≠ p → m.set p (8 * parent π + revBalanceFactor b') a = m a :=
    fun a ha => set_ne m _ ha
  have hw : ∀ L, (∀ x ∈ L, x ∈ addrs c ++ addrs s ++ pathAddrs π) → ∀ a, Within a L →
      m.set p (8 * parent π + revBalanceFactor b') a = m a := by
    rintro L hL a ⟨x, hx, h1, h2⟩
    refine hne a ?_
    rcases hp' x (hL x hx) with h | h <;> omega
  have ho := off_lt d
  refine ⟨⟨repr_dnode.mpr ⟨p0, set_self .., (hne _ (by omega)).trans p2,
    (hne _ (by omega)).trans p3, (hne _ (by omega)).trans p4, hc.congr (hw _ fun x hx => ?_),
    hs'.congr (hw _ fun x hx => ?_)⟩, ?_, ?_⟩, ?_⟩
  · simp [hx]
  · simp [hx]
  · rw [root_dnode] at hp ⊢
    refine hp.congr (hne _ ?_) (hw _ fun x hx => by simp [hx])
    exact fun h => htr ⟨p, by simp, by omega, by omega⟩
  · refine hs.perm (List.Perm.append_left _ ?_)
    exact (addrs_dnode_perm ..).trans (addrs_dnode_perm ..).symm
  · intro a h1 h2
    exact hne a fun h => h2 ⟨p, by simp, by omega, by omega⟩

/-- Recording a balance one level down. -/
lemma zip_setBalance_child (b' : ℤ) {e : Dir} {x : ℤ} {c s S : T} {E : Entry}
    (hz : Zip m tr π (dnode e x (dnode d b c (p, v) s) E S)) :
    Zip (setBalanceFactor m p b') tr π (dnode e x (dnode d b' c (p, v) s) E S) ∧
    Frame tr (nodes π (dnode e x (dnode d b c (p, v) s) E S)) m (setBalanceFactor m p b') := by
  obtain ⟨h1, h2⟩ := zip_setBalance b' (zip_cons_iff (s := ⟨e, x, E, S⟩).mpr hz)
  exact ⟨zip_cons_iff.mp h1, Frame.of_fill.mp h2⟩

/-- Recording the balances of both children of a node. -/
lemma zip_setBalance_two (y' z' : ℤ) {x y z : ℤ} {c g u : ℕ} {B₁ B₂ : T}
    (hz : Zip m tr π
      (dnode d x (dnode d.flip y B₂ (c, w) C) (g, u) (dnode d z B₁ (p, v) A))) :
    let m₁ := setBalanceFactor (setBalanceFactor m c y') p z'
    Zip m₁ tr π
      (dnode d x (dnode d.flip y' B₂ (c, w) C) (g, u) (dnode d z' B₁ (p, v) A)) ∧
    Frame tr (nodes π
      (dnode d x (dnode d.flip y B₂ (c, w) C) (g, u) (dnode d z B₁ (p, v) A))) m m₁ ∧
    setBalanceFactor (setBalanceFactor m p z') c y' = m₁ := by
  obtain ⟨h1, f1⟩ := zip_setBalance_child y' hz
  rw [← dnode_flip] at h1
  obtain ⟨h2, f2⟩ := zip_setBalance_child z' h1
  rw [dnode_flip] at h2 f2
  refine ⟨h2, f1.trans (f2.of_toList ?_), ?_⟩
  · cases d <;> simp [dnode, toList]
  · -- the two nodes are apart, so the order does not matter
    obtain ⟨-, -, hg1, -, -, hc, hp⟩ := repr_dnode.mp hz.tree
    obtain ⟨c0, c1, -⟩ := repr_dnode.mp hc
    obtain ⟨p0, p1, -⟩ := repr_dnode.mp hp
    have hcp : c ≠ p := by
      have := hz.sep.1
      have hs := (List.perm_iff_count.mp (addrs_dnode_perm d x (dnode d.flip y B₂ (c, w) C)
        (g, u) (dnode d z B₁ (p, v) A)))
      rintro rfl
      have h3 := ((List.perm_iff_count.mpr hs).pairwise_iff Apart.symm).mp
        (List.pairwise_append.mp this).2.1
      have h4 := (List.pairwise_append.mp (List.pairwise_cons.mp h3).2).2.2 c (by simp) c
        (by simp)
      rcases h4 with h4 | h4 <;> omega
    simp only [setBalanceFactor, c0, p0, if_false]
    funext a
    simp only [set_apply]
    by_cases h : a = c
    · subst h; simp [hcp]
    · by_cases h' : a = p <;> simp [h, h', hcp.symm]

/-- The balances a double rotation records for the outer nodes, from that of the node lifted. -/
def splitBal (d : Dir) (bg : ℤ) : ℤ × ℤ :=
  if bg = -d.sgn then (d.sgn, 0) else if bg = d.sgn then (0, -d.sgn) else (0, 0)

/-- **The double rotation.** -/
theorem zip_rotateDouble {bc bg : ℤ} {B₁ B₂ : T} {c g u : ℕ}
    (hz : Zip m tr π
      (dnode d b (dnode d.flip bc (dnode d.flip bg B₁ (g, u) B₂) (c, w) C) (p, v) A))
    (hg : IsBal bg) :
    Zip (avlRotateDouble d m tr p).1 tr π
      (dnode d 0 (dnode d.flip (splitBal d bg).1 B₂ (c, w) C) (g, u)
        (dnode d (splitBal d bg).2 B₁ (p, v) A)) ∧
    Frame tr (nodes π
      (dnode d b (dnode d.flip bc (dnode d.flip bg B₁ (g, u) B₂) (c, w) C) (p, v) A)) m
      (avlRotateDouble d m tr p).1 := by
  have hz1 := zip_cons_iff (s := ⟨d, b, (p, v), A⟩).mpr hz
  obtain ⟨-, hr1, hf1⟩ := zip_rotate hz1 hg
  obtain ⟨p0, p1, p2, p3, p4, hC, hA⟩ := repr_dnode.mp hz.tree
  obtain ⟨c0, c1, c2, c3, c4, hG, hC'⟩ := repr_dnode.mp hC
  have e1 : child m d p = c := by rw [root_dnode] at p2; exact ptr_of_eq p2
  have e2 : child m d.flip c = g := by rw [root_dnode] at c2; exact ptr_of_eq c2
  have e3 : balanceFactor m g = bg := by
    obtain ⟨g0, g1, -⟩ := repr_dnode.mp hG
    exact balanceFactor_of_eq g0 hg g1
  -- the second rotation starts from what the first one leaves
  rw [dnode_flip] at hr1
  have hr1' := zip_cons_iff.mp hr1
  simp only [Step.fill] at hr1'
  obtain ⟨-, hr2, hf2⟩ := zip_rotate hr1' (by unfold IsBal; cases d <;> split_ifs <;> simp)
  have hf12 := (Frame.of_fill.mp hf1).trans (hf2.of_toList (by
    cases d <;> simp [Step.fill, dnode, toList]))
  rw [avlRotateDouble, e1, e2, e3]
  obtain ⟨h3, f3, hcomm⟩ := zip_setBalance_two (splitBal d bg).1
    (splitBal d bg).2 hr2
  have hm : (if bg = -d.sgn then
        setBalanceFactor (setBalanceFactor (avlRotate d (avlRotate d.flip m tr c).1 tr p).1 c
          d.sgn) p 0
      else if bg = d.sgn then
        setBalanceFactor (setBalanceFactor (avlRotate d (avlRotate d.flip m tr c).1 tr p).1 p
          (-d.sgn)) c 0
      else setBalanceFactor (setBalanceFactor (avlRotate d (avlRotate d.flip m tr c).1 tr p).1 c
          0) p 0) =
      setBalanceFactor (setBalanceFactor (avlRotate d (avlRotate d.flip m tr c).1 tr p).1 c
        (splitBal d bg).1) p (splitBal d bg).2 := by
    simp only [splitBal] at hcomm ⊢
    split_ifs at hcomm ⊢ with h1 h2
    · rfl
    · exact hcomm
    · rfl
  simp only [hm]
  have e4 : getParent (setBalanceFactor (setBalanceFactor
      (avlRotate d (avlRotate d.flip m tr c).1 tr p).1 c (splitBal d bg).1) p
      (splitBal d bg).2) p = g := by
    obtain ⟨-, -, -, -, -, -, hP⟩ := repr_dnode.mp h3.tree
    obtain ⟨-, hp1, -⟩ := repr_dnode.mp hP
    exact getParent_of_eq p0 hp1
  rw [e4]
  obtain ⟨h4, f4⟩ := zip_setBalance 0 h3
  refine ⟨h4, (hf12.trans (f3.of_toList ?_)).trans (f4.of_toList ?_)⟩
  · cases d <;> simp [Step.fill, dnode, toList]
  · cases d <;> simp [Step.fill, dnode, toList]

/-! ### Restoring the balance -/

variable {t s : T} {e : Entry}

/-- A single rotation restores the balance of a node whose subtree in direction `d` is two
levels higher, unless that subtree leans the other way. -/
theorem rotate_balanced (hz : Zip m tr π (dnode d b t e s)) (ht : t.Balanced)
    (hs : s.Balanced) (hh : t.height = s.height + 2) (hb : t.bal ≠ -d.sgn) :
    ∃ t', Zip (avlRotate d m tr e.1).1 tr π t' ∧ t'.Balanced ∧
      t'.height = (if t.bal = 0 then s.height + 3 else s.height + 2) ∧
      t'.toList = (dnode d b t e s).toList ∧
      Frame tr (nodes π (dnode d b t e s)) m (avlRotate d m tr e.1).1 := by
  obtain ⟨bq, C, ⟨q, w⟩, B, rfl⟩ := exists_dnode d (t := t) (by rintro rfl; simp at hh)
  obtain ⟨p, v⟩ := e
  have hq := isBal_of_balanced ht
  rw [bal_dnode] at hb hq ⊢
  obtain ⟨hC, hB, hbq, -, -⟩ := (balanced_dnode ..).mp ht
  rw [height_dnode] at hh
  obtain ⟨-, h1, h2⟩ := zip_rotate hz hq
  have hcase : bq = 0 ∨ bq = d.sgn := by rcases isBal_neg (d := d) hq with h | h | h <;> tauto
  refine ⟨_, h1, ?_, ?_, (toList_rotate ..).symm, h2⟩
  · rw [balanced_dnode, balanced_dnode]
    rcases hcase with rfl | rfl
    · have hCB : C.height = B.height := by cases d <;> simp at hbq <;> omega
      refine ⟨hC, ⟨hB, hs, ?_, ?_, ?_⟩, ?_, ?_, ?_⟩ <;> cases d <;> simp <;> omega
    · have hCB : C.height = B.height + 1 := by cases d <;> simp at hbq <;> omega
      have h0 := d.sgn_ne_zero
      refine ⟨hC, ⟨hB, hs, ?_, ?_, ?_⟩, ?_, ?_, ?_⟩ <;> simp [h0] <;> omega
  · rw [height_dnode, height_dnode]
    rcases hcase with rfl | rfl
    · have hCB : C.height = B.height := by cases d <;> simp at hbq <;> omega
      rw [if_pos rfl]; omega
    · have hCB : C.height = B.height + 1 := by cases d <;> simp at hbq <;> omega
      rw [if_neg d.sgn_ne_zero]; omega

/-- A double rotation restores the balance when that subtree leans the other way. -/
theorem rotateDouble_balanced (hz : Zip m tr π (dnode d b t e s)) (ht : t.Balanced)
    (hs : s.Balanced) (hh : t.height = s.height + 2) (hb : t.bal = -d.sgn) :
    ∃ t', Zip (avlRotateDouble d m tr e.1).1 tr π t' ∧ t'.Balanced ∧
      t'.height = s.height + 2 ∧ t'.toList = (dnode d b t e s).toList ∧
      Frame tr (nodes π (dnode d b t e s)) m (avlRotateDouble d m tr e.1).1 := by
  obtain ⟨bc, G, ⟨c, w⟩, C, rfl⟩ := exists_dnode d.flip (t := t) (by rintro rfl; simp at hh)
  obtain ⟨p, v⟩ := e
  rw [bal_dnode] at hb
  obtain ⟨hG, hC, hbc, -, -⟩ := (balanced_dnode ..).mp ht
  rw [height_dnode] at hh
  have hGC : G.height = C.height + 1 := by cases d <;> simp at hbc hb <;> omega
  obtain ⟨bg, B₁, ⟨g, u⟩, B₂, rfl⟩ := exists_dnode d.flip (t := G) (by rintro rfl; simp at hGC)
  have hg := isBal_of_balanced hG
  rw [bal_dnode] at hg
  obtain ⟨hB₁, hB₂, hbg, -, -⟩ := (balanced_dnode ..).mp hG
  rw [height_dnode] at hGC hh
  obtain ⟨h1, h2⟩ := zip_rotateDouble hz hg
  refine ⟨_, h1, ?_, ?_, (toList_rotate2 ..).symm, h2⟩
  · rw [balanced_dnode, balanced_dnode, balanced_dnode, height_dnode, height_dnode]
    rcases isBal_neg (d := d) hg with rfl | rfl | rfl
    · refine ⟨⟨hB₂, hC, ?_⟩, ⟨hB₁, hs, ?_⟩, ?_⟩ <;> cases d <;> simp [splitBal] at hbg ⊢ <;> omega
    · refine ⟨⟨hB₂, hC, ?_⟩, ⟨hB₁, hs, ?_⟩, ?_⟩ <;> cases d <;> simp [splitBal] at hbg ⊢ <;> omega
    · refine ⟨⟨hB₂, hC, ?_⟩, ⟨hB₁, hs, ?_⟩, ?_⟩ <;> cases d <;> simp [splitBal] at hbg ⊢ <;> omega
  · rw [height_dnode, height_dnode, height_dnode]
    rcases isBal_neg (d := d) hg with rfl | rfl | rfl <;> cases d <;> simp at hbg <;> omega

end LispMachine.AvlRotate
