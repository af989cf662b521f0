import LispMachine.FreeTree

/-!
Giving a block back to the tree of free blocks, where it grows together with the free blocks
that it touches.
-/

namespace LispMachine.FreeMerge

open LispMachine.Memory LispMachine.AvlCode LispMachine.AvlRepr LispMachine.AvlRotate
open LispMachine.AvlInsert LispMachine.AvlDelete LispMachine.AvlTree LispMachine.FreeTree
open LispMachine.Lib.BalTree LispMachine.Lib.BalTree.BTree

variable {m : Mem} {tr addr amax : ℕ}

/-- The blocks of `L` lie one after the other within the address space and leave the block from
`addr` to `amax` free. -/
structure Around (addr amax : ℕ) (L : List Entry) : Prop where
  order : L.Pairwise fun s t => s.1 + s.2 ≤ t.1
  pos : ∀ e ∈ L, 0 < e.2
  out : ∀ e ∈ L, e.1 + e.2 ≤ addr ∨ amax ≤ e.1
  room : ∀ e ∈ L, e.1 + e.2 < addrSpace
  lt : addr < amax

/-- What is found when the blocks of `L` are searched for one with the property `Q`: the block
found before or else the one in `L`. -/
def Picked (Q : Entry → Prop) (L : List Entry) (x y : ℕ) : Prop :=
  (x = y ∧ ∀ e ∈ L, ¬ Q e) ∨ ∃ e ∈ L, Q e ∧ y = e.1

lemma Picked.mono {Q : Entry → Prop} {L L' : List Entry} {x y : ℕ} (h : Picked Q L x y)
    (hs : ∀ e ∈ L, e ∈ L') (hn : ∀ e ∈ L', Q e → e ∈ L) : Picked Q L' x y := by
  rcases h with ⟨h1, h2⟩ | ⟨e, he, h⟩
  · exact .inl ⟨h1, fun e he hq => h2 e (hn e he hq) hq⟩
  · exact .inr ⟨e, hs e he, h⟩

/-- The block ends at `x`. -/
def Ends (x : ℕ) (e : Entry) : Prop := e.1 + e.2 = x

/-- The block begins at `x`. -/
def Begins (x : ℕ) (e : Entry) : Prop := e.1 = x

/-- The subtree `s` has all the neighbours of the block that `t` has. -/
def Keeps (addr amax : ℕ) (s t : T) : Prop :=
  (∀ e ∈ s.toList, e ∈ t.toList) ∧
    ∀ e ∈ t.toList, Ends addr e ∨ Begins amax e → e ∈ s.toList

namespace Around

variable {b : ℤ} {l r : T} {e : Entry}

lemma sub {L L' : List Entry} (h : Around addr amax L) (hs : L'.Sublist L) :
    Around addr amax L' :=
  ⟨h.order.sublist hs, fun e he => h.pos e (hs.subset he), fun e he => h.out e (hs.subset he),
    fun e he => h.room e (hs.subset he), h.lt⟩

lemma left (h : Around addr amax (BTree.node b l e r).toList) : Around addr amax l.toList :=
  h.sub (by simp [toList])

lemma right (h : Around addr amax (BTree.node b l e r).toList) : Around addr amax r.toList :=
  h.sub ((List.sublist_cons_self ..).trans (List.sublist_append_right ..))

/-- What is to the left of a block ends before it. -/
lemma left_lt (h : Around addr amax (BTree.node b l e r).toList) {x : Entry}
    (hx : x ∈ l.toList) : x.1 + x.2 ≤ e.1 :=
  (List.pairwise_append.mp h.order).2.2 x hx e (by simp)

lemma right_lt (h : Around addr amax (BTree.node b l e r).toList) {x : Entry}
    (hx : x ∈ r.toList) : e.1 + e.2 ≤ x.1 :=
  (List.pairwise_cons.mp (List.pairwise_append.mp h.order).2.1).1 x hx

end Around

/-- A move of the search loses no neighbour, and it descends unless it is at one. -/
lemma mergeNext_spec {par : ℕ} {t : T} (h : Repr m t par)
    (ha : Around addr amax t.toList) :
    ∃ s par', mergeNext m addr amax (root t) = root s ∧ Repr m s par' ∧ Keeps addr amax s t ∧
      Around addr amax s.toList ∧
      (s.height < t.height ∨ s = t ∧ ∀ b l e r, t = .node b l e r →
        Ends addr e ∨ Begins amax e) := by
  cases t with
  | nil => exact ⟨.nil, par, rfl, h, ⟨by simp, by simp⟩, ha, .inr ⟨rfl, by simp⟩⟩
  | node b l e r =>
    obtain ⟨p, v⟩ := e
    have hrep := h
    obtain ⟨p0, p1, p2, p3, p4, hl, hr⟩ := h
    have hL : child m .L p = root l := ptr_of_eq p2
    have hR : child m .R p = root r := ptr_of_eq p3
    have hmem : (p, v) ∈ (BTree.node b l (p, v) r).toList := by simp [toList]
    have hpos := ha.pos _ hmem
    have hout := ha.out _ hmem
    have hroom := ha.room _ hmem
    have hlt := ha.lt
    simp only at hpos hout hroom
    have hadd : padd p (data m p) = p + v := by rw [data, p4]; exact padd_eq hroom
    rw [mergeNext, root, if_neg p0, hL, hR, hadd]
    by_cases h1 : amax < p
    · rw [if_pos h1]
      refine ⟨l, p, rfl, hl, ⟨fun x hx => by simp [toList, hx], fun x hx hq => ?_⟩, ha.left,
        .inl (by simp only [height]; omega)⟩
      have hx' := ha.pos x hx
      simp only [toList, List.mem_append, List.mem_cons] at hx
      unfold Ends Begins at hq
      rcases hx with hx | rfl | hx
      · exact hx
      · simp only at hq; omega
      · have := ha.right_lt hx
        simp only at this
        omega
    · by_cases h2 : p + v < addr
      · rw [if_neg h1, if_pos h2]
        refine ⟨r, p, rfl, hr, ⟨fun x hx => by simp [toList, hx], fun x hx hq => ?_⟩, ha.right,
          .inl (by simp only [height]; omega)⟩
        have hx' := ha.pos x hx
        simp only [toList, List.mem_append, List.mem_cons] at hx
        unfold Ends Begins at hq
        rcases hx with hx | rfl | hx
        · have := ha.left_lt hx
          simp only at this
          omega
        · simp only at hq; omega
        · exact hx
      · rw [if_neg h1, if_neg h2]
        refine ⟨_, par, rfl, hrep, ⟨fun x hx => hx, fun x hx _ => hx⟩, ha,
          .inr ⟨rfl, ?_⟩⟩
        rintro _ _ _ _ ⟨⟩
        unfold Ends Begins
        simp only
        omega

/-- **The search** finds the blocks that touch the block from `addr` to `amax`. -/
theorem mergeSearch_spec {n par : ℕ} {t : T} (left right : ℕ) (h : Repr m t par)
    (ha : Around addr amax t.toList) (hn : t.height < n)
    (hl : left ≠ 0 → ∀ e ∈ t.toList, ¬ Ends addr e)
    (hr : right ≠ 0 → ∀ e ∈ t.toList, ¬ Begins amax e) :
    ∃ x y, mergeSearch m addr amax n (root t) left right = some (x, y) ∧
      Picked (Ends addr) t.toList left x ∧ Picked (Begins amax) t.toList right y := by
  induction n generalizing t par left right with
  | zero => omega
  | succ n ih =>
    rw [mergeSearch]
    by_cases hdone : root t = 0 ∨ left ≠ 0 ∧ right ≠ 0
    · rw [if_pos hdone]
      refine ⟨left, right, rfl, ?_⟩
      rcases hdone with h0 | ⟨h1, h2⟩
      · rw [height_eq_zero_of_root h h0]
        exact ⟨.inl ⟨rfl, by simp⟩, .inl ⟨rfl, by simp⟩⟩
      · exact ⟨.inl ⟨rfl, hl h1⟩, .inl ⟨rfl, hr h2⟩⟩
    · rw [if_neg hdone]
      obtain _ | ⟨b, l, ⟨p, v⟩, r⟩ := t
      · exact absurd (.inl rfl) hdone
      have hrep := h
      obtain ⟨p0, p1, p2, p3, p4, hL, hR⟩ := h
      have hmem : ∀ e, e ∈ (BTree.node b l (p, v) r).toList ↔
          e ∈ l.toList ∨ e = (p, v) ∨ e ∈ r.toList := fun e => by simp [toList]
      have hpv := (hmem (p, v)).mpr (.inr (.inl rfl))
      have hadd : padd p (data m p) = p + v := by
        rw [data, p4]; exact padd_eq (ha.room _ hpv)
      have hcl : child m .L p = root l := ptr_of_eq p2
      have hcr : child m .R p = root r := ptr_of_eq p3
      have hlt := ha.lt
      simp only [height] at hn
      rw [root, hadd, hcl, hcr]
      by_cases h1 : p = amax
      · -- the block on the right: what ends at the block is further to the left
        rw [if_pos h1]
        obtain ⟨s, par', g1, g2, ⟨g3, g4⟩, g5, g6⟩ := mergeNext_spec hL ha.left
        have hnone : ∀ e ∈ s.toList, ¬ Begins amax e := fun e he hq => by
          have h2 := ha.left_lt (g3 e he)
          have h3 := ha.pos e ((hmem e).mpr (.inl (g3 e he)))
          unfold Begins at hq
          simp only at h2
          omega
        obtain ⟨x, y, k1, k2, k3⟩ := ih left p g2 g5
          (by rcases g6 with g6 | ⟨rfl, -⟩ <;> omega)
          (fun h e he => hl h e ((hmem e).mpr (.inl (g3 e he)))) (fun _ => hnone)
        refine ⟨x, y, by rw [g1, k1], k2.mono (fun e he => (hmem e).mpr (.inl (g3 e he))) ?_, ?_⟩
        · intro e he hq
          unfold Ends at hq
          rcases (hmem e).mp he with he | rfl | he
          · exact g4 e he (.inl hq)
          · simp only at hq; omega
          · have := ha.right_lt he
            simp only at this
            omega
        · rcases k3 with ⟨rfl, -⟩ | ⟨e, he, hq, -⟩
          · exact .inr ⟨(p, v), hpv, h1, rfl⟩
          · exact absurd hq (hnone e he)
      · by_cases h2 : p + v = addr
        · -- the block on the left: what begins after the block is further to the right
          rw [if_neg h1, if_pos h2]
          obtain ⟨s, par', g1, g2, ⟨g3, g4⟩, g5, g6⟩ := mergeNext_spec hR ha.right
          have hnone : ∀ e ∈ s.toList, ¬ Ends addr e := fun e he hq => by
            have h3 := ha.right_lt (g3 e he)
            have h4 := ha.pos e ((hmem e).mpr (.inr (.inr (g3 e he))))
            unfold Ends at hq
            simp only at h3
            omega
          obtain ⟨x, y, k1, k2, k3⟩ := ih p right g2 g5
            (by rcases g6 with g6 | ⟨rfl, -⟩ <;> omega) (fun _ => hnone)
            (fun h e he => hr h e ((hmem e).mpr (.inr (.inr (g3 e he)))))
          refine ⟨x, y, by rw [g1, k1], ?_,
            k3.mono (fun e he => (hmem e).mpr (.inr (.inr (g3 e he)))) ?_⟩
          · rcases k2 with ⟨rfl, -⟩ | ⟨e, he, hq, -⟩
            · exact .inr ⟨(p, v), hpv, h2, rfl⟩
            · exact absurd hq (hnone e he)
          · intro e he hq
            have h3 := ha.pos e he
            unfold Begins at hq
            rcases (hmem e).mp he with he | rfl | he
            · have := ha.left_lt he
              simp only at this
              omega
            · simp only at hq; omega
            · exact g4 e he (.inr hq)
        · -- neither of the two, so the search descends
          rw [if_neg h1, if_neg h2]
          obtain ⟨s, par', g1, g2, ⟨g3, g4⟩, g5, g6⟩ := mergeNext_spec hrep ha
          rw [root] at g1
          have hdesc : s.height < (BTree.node b l (p, v) r).height := by
            rcases g6 with g6 | ⟨-, g6⟩
            · exact g6
            · exact absurd (g6 _ _ _ _ rfl) (not_or.mpr ⟨h2, h1⟩)
          simp only [height] at hdesc
          obtain ⟨x, y, k1, k2, k3⟩ := ih left right g2 g5 (by omega)
            (fun h e he => hl h e (g3 e he)) (fun h e he => hr h e (g3 e he))
          exact ⟨x, y, by rw [g1, k1], k2.mono g3 fun e he hq => g4 e he (.inl hq),
            k3.mono g3 fun e he hq => g4 e he (.inr hq)⟩

/-- What a block that is given back grows together with. -/
inductive Touching (Q : Entry → Prop) (L : List Entry) : List Entry → Prop
  | none (h : ∀ e ∈ L, ¬ Q e) : Touching Q L []
  | one (e : Entry) (he : e ∈ L) (hq : Q e) : Touching Q L [e]

/-- The sum of the lengths. -/
def len (L : List Entry) : ℕ := (L.map Prod.snd).sum

@[simp] lemma len_nil : len [] = 0 := rfl
@[simp] lemma len_single (e : Entry) : len [e] = e.2 := by simp [len]

lemma length_le_len {L : List Entry} (h : ∀ e ∈ L, 0 < e.2) : L.length ≤ len L := by
  induction L with
  | nil => simp
  | cons e L ih =>
    have h1 := h e (by simp)
    have h2 := ih fun e he => h e (by simp [he])
    simp only [len, List.map_cons, List.sum_cons, List.length_cons] at h2 ⊢
    omega

/-- A block found by the search is taken out of the tree. -/
lemma absorb_spec {Q : Entry → Prop} {t : T} {x : ℕ} (h : Holds m tr t)
    (hroom : ∀ e ∈ t.toList, e.1 + 4 ≤ addrSpace) (hx : Picked Q t.toList 0 x) :
    ∃ m' t' r, (x = 0 ∧ r = [] ∧ m' = m ∨
        x ≠ 0 ∧ r = [(x, data m x)] ∧ avlRemove m tr x = some m') ∧
      Holds m' tr t' ∧ t.toList.Perm (r ++ t'.toList) ∧ t'.toList.Sublist t.toList ∧
      Touching Q t.toList r ∧ Frame tr (addrs t) m m' := by
  rcases hx with ⟨rfl, hx⟩ | ⟨⟨p, v⟩, he, hq, rfl⟩
  · exact ⟨m, t, [], .inl ⟨rfl, rfl, rfl⟩, h, .refl _, .refl _, .none hx,
      Frame.refl tr _ m⟩
  · have hfuel := height_lt_fuel h fun p hp => by
      obtain ⟨e, he, rfl⟩ := List.mem_map.mp ((addrs_perm t).subset hp)
      exact hroom e he
    obtain ⟨m', t', L₁, L₂, w, h1, h2, h3, h4, h5⟩ := avlRemove_spec h he hfuel
    have hw : (x, w) ∈ t.toList := by simp [h3]
    obtain ⟨hp0, hd⟩ := data_of_mem h.zip.tree he
    have hd' := (data_of_mem h.zip.tree hw).2
    simp only at hd hd' hp0
    obtain rfl : v = w := hd.symm.trans hd'
    refine ⟨m', t', [(x, v)], .inr ⟨hp0, by simp [hd], h1⟩, h2, ?_, ?_, .one _ he hq, h5⟩
    · rw [h3, h4]
      exact List.perm_middle
    · rw [h3, h4]
      exact (List.sublist_cons_self ..).append_left L₁

lemma addrs_perm_of {t t' : T} {r : List Entry} (h : t.toList.Perm (r ++ t'.toList)) :
    (addrs t).Perm (r.map Prod.fst ++ addrs t') := by
  refine (addrs_perm t).trans ((h.map Prod.fst).trans ?_)
  rw [List.map_append]
  exact (addrs_perm t').symm.append_left _

/-- **Giving a block back**: it takes the place of the free blocks that it touches. -/
theorem avlMerge_spec {t : T} {size : ℕ} (h : Holds m tr t)
    (ha : Around addr (addr + size) t.toList) (h4 : ∀ e ∈ t.toList, 4 ≤ e.2)
    (h0 : addr ≠ 0) (hsize : addr + size < addrSpace) (hsep : Sep tr (addr :: addrs t)) :
    ∃ m' t' l r rest, avlMerge m tr addr size = some m' ∧ Holds m' tr t' ∧
      Rising t'.toList ∧ t.toList.Perm (l ++ r ++ rest) ∧
      Touching (Ends addr) t.toList l ∧ Touching (Begins (addr + size)) t.toList r ∧
      t'.toList.Perm ((addr - len l, len l + size + len r) :: rest) ∧
      Frame tr (addr :: addrs t) m m' := by
  have hroom : ∀ e ∈ t.toList, e.1 + 4 ≤ addrSpace := fun e he => by
    have := ha.room e he
    have := h4 e he
    omega
  have hspace : addrSpace < wordMod := by decide
  have hrise : Rising t.toList := ha.order.imp_of_mem fun {a b} ha' _ hab => by
    have := h4 a ha'
    omega
  have hfuel : ∀ {m' t'}, Holds m' tr t' → t'.toList.Sublist t.toList → t'.height + 1 < fuel :=
    fun h' hs => height_lt_fuel h' fun p hp => by
      obtain ⟨e, he, rfl⟩ := List.mem_map.mp ((addrs_perm _).subset hp)
      exact hroom e (hs.subset he)
  have hptr : m.ptr tr = root t := ptr_of_eq h.zip.path
  have hend : padd addr size = addr + size := padd_eq hsize
  obtain ⟨left, right, hsearch, hleft, hright⟩ := mergeSearch_spec 0 0 h.zip.tree ha
    (by have := hfuel h (.refl _); omega : t.height < fuel) (by simp) (by simp)
  -- the block on the right
  obtain ⟨m₁, t₁, r, hr, h1, hp1, hs1, ht1, hf1⟩ := absorb_spec h hroom hright
  have hcode1 : (if right ≠ 0 then
      (avlRemove m tr right).map fun m' => (m', wadd size (data m right))
      else some (m, size)) = some (m₁, size + len r) := by
    rcases hr with ⟨rfl, rfl, rfl⟩ | ⟨hx, rfl, hx'⟩
    · simp
    · cases ht1 with
      | one _ he hq =>
        have := ha.room _ he
        unfold Begins at hq
        simp only at this hq
        rw [if_pos hx, hx', Option.map_some, len_single, wadd_eq (by omega)]
  -- the block on the left
  have hleft1 : Picked (Ends addr) t₁.toList 0 left := by
    refine hleft.imp (fun ⟨g1, g2⟩ => ⟨g1, fun e he => g2 e (hs1.subset he)⟩) ?_
    rintro ⟨e, he, hq, rfl⟩
    refine ⟨e, (List.mem_append.mp (hp1.subset he)).resolve_left fun her => ?_, hq, rfl⟩
    cases ht1 with
    | none => simp at her
    | one e' he' hq' =>
      obtain rfl := List.mem_singleton.mp her
      have := h4 e he
      unfold Ends at hq
      unfold Begins at hq'
      omega
  obtain ⟨m₂, t₂, l, hl, h2, hp2, hs2, ht2, hf2⟩ := absorb_spec h1
    (fun e he => hroom e (hs1.subset he)) hleft1
  have hlen : size + len r < wordMod := by
    cases ht1 with
    | none => simp only [len_nil]; omega
    | one e he hq =>
      have := ha.room e he
      unfold Begins at hq
      rw [len_single]
      omega
  have hcode2 : (if left ≠ 0 then
      (avlRemove m₁ tr left).map fun m' =>
        (m', psub addr (data m₁ left), wadd (size + len r) (data m₁ left))
      else some (m₁, addr, size + len r)) = some (m₂, addr - len l, len l + size + len r) := by
    rcases hl with ⟨rfl, rfl, rfl⟩ | ⟨hx, rfl, hx'⟩
    · simp
    · cases ht2 with
      | one _ he hq =>
        unfold Ends at hq
        simp only at hq
        have hlen' : data m₁ left + size + len r < wordMod := by
          cases ht1 with
          | none => simp only [len_nil]; omega
          | one e he hq =>
            have := ha.room e he
            unfold Begins at hq
            rw [len_single]
            omega
        rw [if_pos hx, hx', Option.map_some, len_single, psub_eq (by omega) (by omega),
          wadd_eq (by omega)]
        simp only [Option.some.injEq, Prod.mk.injEq, true_and]
        omega
  -- the block that has grown is put in
  have hnew : addr - len l ≠ 0 ∧ (l = [] ∨ l.map Prod.fst = [addr - len l]) := by
    rcases hl with ⟨rfl, rfl, rfl⟩ | ⟨hx, rfl, hx'⟩
    · exact ⟨by simpa using h0, .inl rfl⟩
    · cases ht2 with
      | one _ he hq =>
        unfold Ends at hq
        simp only at hq
        have hd : addr - data m₁ left = left := by omega
        rw [len_single, hd]
        exact ⟨hx, .inr rfl⟩
  have ht : Touching (Ends addr) t.toList l := by
    cases ht2 with
    | one e he hq => exact .one e (hs1.subset he) hq
    | none hnone =>
      refine .none fun e he hq => ?_
      rcases List.mem_append.mp (hp1.subset he) with her | he'
      · cases ht1 with
        | none => simp at her
        | one e' he' hq' =>
          obtain rfl := List.mem_singleton.mp her
          have := h4 e he
          unfold Ends at hq
          unfold Begins at hq'
          omega
      · exact hnone e he' hq
  have hp : t.toList.Perm (l ++ r ++ t₂.toList) := by
    refine (hp1.trans (hp2.append_left r)).trans ?_
    rw [← List.append_assoc]
    exact List.perm_append_comm.append_right _
  have haddrs := addrs_perm_of hp
  have hsub1 : addrs t₁ ⊆ addrs t := fun x hx =>
    (addrs_perm_of hp1).symm.subset (List.mem_append_right _ hx)
  obtain ⟨hnew0, hnew⟩ := hnew
  have hnode : Sep tr ((addr - len l) :: addrs t₂) := by
    have h5 := hsep.perm (haddrs.cons addr)
    rcases hnew with h6 | h6
    · rw [h6] at h5 ⊢
      exact h5.sublist ((List.sublist_append_right ..).cons_cons _)
    · rw [List.map_append, h6] at h5
      exact h5.sublist (.cons _ ((List.sublist_append_right ..).cons_cons _))
  obtain ⟨m₃, t₃, g1, g2, g3, g4, g5⟩ := insertMem_spec (v := len l + size + len r) h2
    (hrise.sublist (hs2.trans hs1)) hnew0 hnode (hfuel h2 (hs2.trans hs1))
  refine ⟨m₃, t₃, l, r, t₂.toList, ?_, g2, g4, hp, ht, ht1, g3, ?_⟩
  · rw [avlMerge, hptr, hend, hsearch]
    simp only [Option.bind_some]
    rw [hcode1]
    simp only [Option.bind_some]
    rw [hcode2]
    simp only [Option.bind_some, g1, Option.map_some]
  · refine ((hf1.mono fun x hx => List.mem_cons_of_mem _ hx).trans
      (hf2.mono fun x hx => List.mem_cons_of_mem _ (hsub1 hx))).trans (g5.mono fun x hx => ?_)
    rcases List.mem_cons.mp hx with rfl | hx
    · rcases hnew with h6 | h6
      · simp [h6]
      · refine List.mem_cons_of_mem _ (haddrs.symm.subset ?_)
        rw [List.map_append, h6]
        simp
    · exact List.mem_cons_of_mem _ (haddrs.symm.subset (List.mem_append_right _ hx))

end LispMachine.FreeMerge
