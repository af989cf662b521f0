import LispMachine.HeapFrame
import LispMachine.Lib.Assoc
import LispMachine.SetsCmp

/-!
When memory holds a set that stands for a map, and what the operations do to it.

The nodes of the tree are the set's own; the pairs and their keys are objects that others may
refer to, and of which only the counts of references change.
-/

namespace LispMachine.SetsInv

open LispMachine.Memory LispMachine.AvlCode LispMachine.AvlRepr LispMachine.AvlInsert
open LispMachine.AvlRotate LispMachine.AvlDelete LispMachine.AvlTree LispMachine.Alloc
open LispMachine.Heap LispMachine.HeapInv LispMachine.HeapRuns LispMachine.HeapFrame
open LispMachine.Object LispMachine.Sets
open LispMachine.SetsCmp LispMachine.Lib.BalTree LispMachine.Lib.BalTree.BTree
open LispMachine.Lib.Assoc

/-! ### The words that a namespace consists of -/

/-- The key and the value of the pair that data of a node are the address of. -/
def keyOf (m : Mem) (d : ℕ) : ℕ := m.ptr (contents (d / 8) 0)
def valOf (m : Mem) (d : ℕ) : ℕ := m.ptr (contents (d / 8) 1)

/-- The nodes that are reached from the root pointer. -/
inductive IsNode (m : Mem) (tr : ℕ) : ℕ → Prop
  | root (h : m.ptr tr ≠ 0) : IsNode m tr (m.ptr tr)
  | child {nd : ℕ} (h : IsNode m tr nd) (d : Dir) (h0 : child m d nd ≠ 0) :
    IsNode m tr (child m d nd)

/-- The words that the lookups in the set `st` read, by their blocks and offsets. -/
inductive InUse (m : Mem) (st : ℕ) : ℕ → ℕ → Prop
  | root : InUse m st (st + 1) 3
  | node {nd i : ℕ} (h : IsNode m (contents st 0) nd) (hi : i < 4) : InUse m st nd i
  | pair {nd i : ℕ} (h : IsNode m (contents st 0) nd) (hi : i < 2) :
    InUse m st (dataPtr m nd + 1) (3 + i)
  | key {nd i : ℕ} (h : IsNode m (contents st 0) nd)
    (hi : i ≤ m (size (keyOf m (data m nd)))) : InUse m st (keyOf m (data m nd) + 1) (2 + i)

/-- The object at `o` is allocated, and its block holds its contents. -/
structure IsObj (s : HSt) (o : ℕ) : Prop where
  live : o + 1 ∈ s.live
  room : s.mem (size o) + 3 ≤ getMemSz s.mem (o + 1)

/-- What is known of the pair at the address `d`, in a set `st` with the nodes `N`. -/
structure IsPair (s : HSt) (st : ℕ) (N : List ℕ) (d : ℕ) : Prop where
  live : d / 8 + 1 ∈ s.live
  room : 5 ≤ getMemSz s.mem (d / 8 + 1)
  ne_set : d / 8 ≠ st
  not_node : d / 8 + 1 ∉ N
  key : IsObj s (keyOf s.mem d)
  key_ne_set : keyOf s.mem d ≠ st
  key_not_node : keyOf s.mem d + 1 ∉ N

/-- The binding that the pair is. -/
def binding (m : Mem) (d : ℕ) : List ℕ × ℕ := (text m (keyOf m d), valOf m d)

/-- The heap, and the map that the set stands for: the words of the keys to the values. -/
structure St where
  heap : HSt
  map : List ℕ → Option ℕ

/-- The set `st` is a tree of nodes of its own. -/
structure TreeAt (h sz st : ℕ) (s : HSt) (t : T) : Prop where
  sound : Sound h sz s
  set : st + 1 ∈ s.live ∧ 4 ≤ getMemSz s.mem (st + 1)
  holds : Holds s.mem (contents st 0) t
  nodes : ∀ nd ∈ addrs t, nd ∈ s.live ∧ 4 ≤ getMemSz s.mem nd
  set_not_node : st + 1 ∉ addrs t

/-- The set `st` is the tree `t`, of the bindings of the map. -/
structure Good (h sz st : ℕ) (S : St) (t : T) : Prop where
  sound : Sound h sz S.heap
  set : st + 1 ∈ S.heap.live ∧ 4 ≤ getMemSz S.heap.mem (st + 1)
  holds : Holds S.heap.mem (contents st 0) t
  nodes : ∀ nd ∈ addrs t, nd ∈ S.heap.live ∧ 4 ≤ getMemSz S.heap.mem nd
  set_not_node : st + 1 ∉ addrs t
  pairs : ∀ e ∈ t.toList, IsPair S.heap st (addrs t) e.2
  sorted : (t.toList.map fun e => rank (text S.heap.mem (keyOf S.heap.mem e.2))).Pairwise (· < ·)
  map : Lists (t.toList.map fun e => binding S.heap.mem e.2) S.map

variable {h sz st : ℕ} {s s' : HSt} {m : Mem} {t : T} {W : ℕ → ℕ → Prop}

/-- The nodes of a tree that memory holds are those reached from its root. -/
lemma isNode_of_repr {tr par : ℕ} {t : T} (hr : Repr m t par)
    (h : root t ≠ 0 → IsNode m tr (root t)) :
    ∀ nd ∈ addrs t, IsNode m tr nd := by
  induction t generalizing par with
  | nil => simp
  | node b l e r ihl ihr =>
    obtain ⟨p, v⟩ := e
    obtain ⟨p0, p1, p2, p3, p4, hl, hr⟩ := hr
    have hp : IsNode m tr p := h p0
    have hL : child m .L p = root l := ptr_of_eq p2
    have hR : child m .R p = root r := ptr_of_eq p3
    intro nd hnd
    simp only [addrs, List.mem_cons, List.mem_append] at hnd
    rcases hnd with rfl | hnd | hnd
    · exact hp
    · exact ihl hl (fun h0 => hL ▸ hp.child .L (hL ▸ h0)) nd hnd
    · exact ihr hr (fun h0 => hR ▸ hp.child .R (hR ▸ h0)) nd hnd

lemma child_mem_addrs {par nd : ℕ} {t : T} (hr : Repr m t par) (hnd : nd ∈ addrs t) (d : Dir)
    (h0 : child m d nd ≠ 0) : child m d nd ∈ addrs t := by
  induction t generalizing par with
  | nil => simp at hnd
  | node b l e r ihl ihr =>
    obtain ⟨p, v⟩ := e
    obtain ⟨p0, p1, p2, p3, p4, hl, hr⟩ := hr
    simp only [addrs, List.mem_cons, List.mem_append] at hnd ⊢
    rcases hnd with rfl | hnd | hnd
    · cases d with
      | L =>
        have hL : child m .L nd = root l := ptr_of_eq p2
        rw [hL] at h0 ⊢
        exact .inr (.inl (root_mem_addrs h0))
      | R =>
        have hR : child m .R nd = root r := ptr_of_eq p3
        rw [hR] at h0 ⊢
        exact .inr (.inr (root_mem_addrs h0))
    · exact .inr (.inl (ihl hl hnd))
    · exact .inr (.inr (ihr hr hnd))

lemma isNode_iff {tr nd : ℕ} (hh : Holds m tr t) : IsNode m tr nd ↔ nd ∈ addrs t := by
  have hroot : m.ptr tr = root t := ptr_of_eq hh.zip.path
  constructor
  · intro hn
    induction hn with
    | root h0 =>
      rw [hroot] at h0 ⊢
      exact root_mem_addrs h0
    | child hn d h0 ih => exact child_mem_addrs hh.zip.tree ih d h0
  · exact isNode_of_repr hh.zip.tree (fun h0 => hroot ▸ .root (hroot ▸ h0)) nd

/-! ### The tree -/

/-- The words of a node are written. -/
lemma wrote_node (v : ℕ) (hs : Sound h sz s) {nd : ℕ} (hnd : nd ∈ s.live)
    (hsz : 4 ≤ getMemSz s.mem nd) :
    Wrote h sz (fun a _ => a = nd) s ⟨writeNode s.mem nd 3 0 0 v, s.live⟩ := by
  refine Wrote.users hs (fun x hx => writeNode_out _ _ _ _ _ ?_) fun a ha i hi hn =>
    writeNode_out _ _ _ _ _ ?_
  · rintro ⟨y, hy, h1, h2⟩
    rw [List.mem_singleton] at hy
    subst hy
    exact hx y hnd (x - y) (by omega) (by omega)
  · rintro ⟨y, hy, h1, h2⟩
    rw [List.mem_singleton] at hy
    subst hy
    exact hn (hs.word_inj ha hnd hi (j := a + i - y) (by omega) (by omega)).1

namespace TreeAt

/-- The nodes are apart, also from a new one. -/
lemma sep (ht : TreeAt h sz st s t) {nd : ℕ} (hnd : nd ∈ s.live)
    (hsz : 4 ≤ getMemSz s.mem nd) (hne : nd ∉ addrs t) (hst : nd ≠ st + 1) :
    Sep (contents st 0) (nd :: addrs t) := by
  obtain ⟨hpw, -⟩ : Sep (contents st 0) (addrs t) := by simpa using ht.holds.zip.sep
  refine ⟨List.pairwise_cons.mpr ⟨fun x hx => ?_, hpw⟩, ?_⟩
  · have h1 := ht.nodes x hx
    exact ht.sound.apart hnd h1.1 hsz h1.2 fun heq => hne (heq ▸ hx)
  · rintro ⟨x, hx, h1, h2⟩
    have hx' : x ∈ s.live ∧ 4 ≤ getMemSz s.mem x ∧ x ≠ st + 1 := by
      rcases List.mem_cons.mp hx with rfl | hx
      · exact ⟨hnd, hsz, hst⟩
      · exact ⟨(ht.nodes x hx).1, (ht.nodes x hx).2, fun heq => ht.set_not_node (heq ▸ hx)⟩
    have hset := ht.set
    unfold contents at h1 h2
    have h3 := ht.sound.word_inj hx'.1 hset.1 (i := st + 4 - x) (j := 3) (by omega) (by omega)
      (by omega)
    exact hx'.2.2 h3.1

lemma fuel_lt (ht : TreeAt h sz st s t) : t.height + 1 < fuel := by
  refine height_lt_fuel ht.holds fun p hp => ?_
  have h1 := ht.nodes p hp
  have h2 := ht.sound.bounds h1.1
  omega

/-- What the insertion or deletion of nodes leaves of the heap. -/
lemma wrote (ht : TreeAt h sz st s t) {m' : Mem} {L : List ℕ}
    (hL : ∀ nd ∈ L, nd ∈ s.live ∧ 4 ≤ getMemSz s.mem nd)
    (hf : Frame (contents st 0) L s.mem m') :
    Wrote h sz (fun a i => a ∈ L ∨ a = st + 1 ∧ i = 3) s ⟨m', s.live⟩ := by
  have hset := ht.set
  refine Wrote.users ht.sound (fun x hx => hf x ?_ ?_) fun a ha i hi hn => hf _ ?_ ?_
  · intro heq
    exact hx _ hset.1 3 (by omega) (by rw [heq]; unfold contents; omega)
  · rintro ⟨nd, hnd, h1, h2⟩
    have := hL nd hnd
    exact hx nd this.1 (x - nd) (by omega) (by omega)
  · intro heq
    unfold contents at heq
    have h1 := ht.sound.word_inj ha hset.1 hi (j := 3) (by omega) (by omega)
    exact hn (.inr h1)
  · rintro ⟨nd, hnd, h1, h2⟩
    have h3 := hL nd hnd
    have h4 := ht.sound.word_inj ha h3.1 hi (j := a + i - nd) (by omega) (by omega)
    exact hn (.inl (h4.1 ▸ hnd))

/-- What does not write the pointer to the root, nor a node, leaves the tree as it is. -/
lemma ext (ht : TreeAt h sz st s t) (hs' : Sound h sz s') (hx : Ext W s s')
    (hroot : ¬ W (st + 1) 3) (hnode : ∀ nd ∈ addrs t, ∀ i < 4, ¬ W nd i) :
    TreeAt h sz st s' t := by
  have hset := hx _ ht.set.1 3 (by have := ht.set.2; omega) hroot
  have hword : ∀ nd ∈ addrs t, ∀ i < 4, Survives s s' nd i := fun nd hnd i hi => by
    have h1 := ht.nodes nd hnd
    exact hx _ h1.1 i (by omega) (hnode nd hnd i hi)
  refine ⟨hs', ⟨hset.live, by rw [hset.memSz]; exact ht.set.2⟩, ht.holds.congr hset.word ?_, ?_,
    ht.set_not_node⟩
  · rintro a ⟨nd, hnd, h1, h2⟩
    have := (hword nd hnd (a - nd) (by omega)).word
    rwa [show nd + (a - nd) = a by omega] at this
  · intro nd hnd
    have h1 := hword nd hnd 0 (by omega)
    exact ⟨h1.live, by rw [h1.memSz]; exact (ht.nodes nd hnd).2⟩

end TreeAt

/-! ### What survives -/

/-- An object whose words survive has the same contents. -/
lemma IsObj.ext {o : ℕ} (ho : IsObj s o) (hx : Ext W s s')
    (hW : ∀ i ≤ s.mem (size o), ¬ W (o + 1) (2 + i)) :
    IsObj s' o ∧ text s'.mem o = text s.mem o := by
  have hroom := ho.room
  have hsz := hx _ ho.live 2 (by omega) (hW 0 (by omega))
  have hsize : s'.mem (size o) = s.mem (size o) := hsz.word
  refine ⟨⟨hsz.live, by rw [hsize, hsz.memSz]; exact hroom⟩, ?_⟩
  rw [text, text, hsize]
  refine List.map_congr_left fun i hi => ?_
  rw [List.mem_range] at hi
  have hword := (hx _ ho.live (2 + (i + 1)) (by omega) (hW (i + 1) (by omega))).word
  rwa [show o + 1 + (2 + (i + 1)) = contents o i by unfold contents; omega] at hword

/-- A pair whose words and whose key survive is the same binding. -/
lemma IsPair.ext {N M : List ℕ} {d : ℕ} (hp : IsPair s st N d) (hx : Ext W s s')
    (hpair : ∀ i < 2, ¬ W (d / 8 + 1) (3 + i))
    (hkey : ∀ i ≤ s.mem (size (keyOf s.mem d)), ¬ W (keyOf s.mem d + 1) (2 + i))
    (hN : ∀ nd ∈ M, nd ∈ N ∨ nd ∉ s.live) :
    IsPair s' st M d ∧ binding s'.mem d = binding s.mem d ∧ keyOf s'.mem d = keyOf s.mem d := by
  have hroom := hp.room
  have h0 := hx _ hp.live 3 (by omega) (hpair 0 (by omega))
  have h1 := hx _ hp.live 4 (by omega) (hpair 1 (by omega))
  have hk : keyOf s'.mem d = keyOf s.mem d := congrArg (· / 8) h0.word
  have hv : valOf s'.mem d = valOf s.mem d := congrArg (· / 8) h1.word
  obtain ⟨hko, htext⟩ := hp.key.ext hx hkey
  have hnot : ∀ a, a ∈ s.live → a ∉ N → a ∉ M := fun a ha han hmem =>
    (hN a hmem).elim han fun h => h ha
  refine ⟨⟨h0.live, by rw [h0.memSz]; exact hroom, hp.ne_set, hnot _ hp.live hp.not_node,
    by rw [hk]; exact hko, by rw [hk]; exact hp.key_ne_set,
    by rw [hk]; exact hnot _ hp.key.live hp.key_not_node⟩, ?_, hk⟩
  rw [binding, binding, hk, hv, htext]

namespace Good

variable {S : St}

lemma tree (hg : Good h sz st S t) : TreeAt h sz st S.heap t :=
  ⟨hg.sound, hg.set, hg.holds, hg.nodes, hg.set_not_node⟩

/-- A node's data are in use. -/
lemma inUse_pair (hg : Good h sz st S t) {e : Entry} (he : e ∈ t.toList) {i : ℕ} (hi : i < 2) :
    InUse S.heap.mem st (e.2 / 8 + 1) (3 + i) := by
  have hn := (isNode_iff hg.holds).mpr ((addrs_perm t).symm.subset (List.mem_map_of_mem he))
  have hd := (data_of_mem hg.holds.zip.tree he).2
  exact hd ▸ .pair hn hi

lemma inUse_key (hg : Good h sz st S t) {e : Entry} (he : e ∈ t.toList) {i : ℕ}
    (hi : i ≤ S.heap.mem (size (keyOf S.heap.mem e.2))) :
    InUse S.heap.mem st (keyOf S.heap.mem e.2 + 1) (2 + i) := by
  have hn := (isNode_iff hg.holds).mpr ((addrs_perm t).symm.subset (List.mem_map_of_mem he))
  have hd := (data_of_mem hg.holds.zip.tree he).2
  rw [← hd] at hi ⊢
  exact .key hn hi

/-- The bindings `g` of the pairs in a tree. -/
lemma of_bindings {f : List ℕ → Option ℕ} (g : ℕ → List ℕ × ℕ) (hsound : Sound h sz s)
    (hset : st + 1 ∈ s.live ∧ 4 ≤ getMemSz s.mem (st + 1)) (hholds : Holds s.mem (contents st 0) t)
    (hnodes : ∀ nd ∈ addrs t, nd ∈ s.live ∧ 4 ≤ getMemSz s.mem nd) (hsn : st + 1 ∉ addrs t)
    (hpairs : ∀ d ∈ t.toList.map Prod.snd, IsPair s st (addrs t) d ∧ binding s.mem d = g d)
    (hsorted : ((t.toList.map Prod.snd).map fun d => rank (g d).1).Pairwise (· < ·))
    (hmap : Lists ((t.toList.map Prod.snd).map g) f) : Good h sz st ⟨s, f⟩ t := by
  have hmem : ∀ e ∈ t.toList, e.2 ∈ t.toList.map Prod.snd := fun e he => List.mem_map_of_mem he
  refine ⟨hsound, hset, hholds, hnodes, hsn, fun e he => (hpairs _ (hmem e he)).1, ?_, ?_⟩
  · rw [List.map_map] at hsorted
    convert hsorted using 1
    refine List.map_congr_left fun e he => ?_
    exact congrArg (fun b => rank (Prod.fst b)) (hpairs _ (hmem e he)).2
  · rw [List.map_map] at hmap
    convert hmap using 1
    exact List.map_congr_left fun e he => (hpairs _ (hmem e he)).2

lemma sorted' (hg : Good h sz st S t) : ((t.toList.map Prod.snd).map fun d =>
    rank (binding S.heap.mem d).1).Pairwise (· < ·) := by
  rw [List.map_map]
  exact hg.sorted

lemma map' (hg : Good h sz st S t) : Lists ((t.toList.map Prod.snd).map (binding S.heap.mem))
    S.map := by
  rw [List.map_map]
  exact hg.map

/-- **Frame.** What does not write the words in use leaves the namespace as it is. -/
lemma ext (hg : Good h sz st S t) (hsound : Sound h sz s') (hx : Ext W S.heap s')
    (hW : ∀ a i, InUse S.heap.mem st a i → ¬ W a i) : Good h sz st ⟨s', S.map⟩ t := by
  obtain ⟨-, h1, h2, h3, h4⟩ := hg.tree.ext hsound hx (hW _ _ .root) fun nd hnd i hi =>
    hW _ _ (.node ((isNode_iff hg.holds).mpr hnd) hi)
  refine of_bindings (binding S.heap.mem) hsound h1 h2 h3 h4 (fun d hd => ?_) hg.sorted' hg.map'
  obtain ⟨e, he, rfl⟩ := List.mem_map.mp hd
  have h5 := (hg.pairs e he).ext hx (fun i hi => hW _ _ (hg.inUse_pair he hi))
    (fun i hi => hW _ _ (hg.inUse_key he hi)) fun nd hnd => .inl hnd
  exact ⟨h5.1, h5.2.1⟩

end Good

/-! ### The operations -/

/-- **`pair`** takes a block for the pair, and counts references. -/
lemma pair_ext {ty k v p : ℕ} (hs : Sound h sz s) (hty : ty + 1 ∈ s.live) (hk : k + 1 ∈ s.live)
    (hv : v + 1 ∈ s.live) (hr : pair h ty s k v = some (s', p)) (h0 : p ≠ 0) :
    Sound h sz s' ∧ Ext (fun a i => i = 0 ∧ (a = ty + 1 ∨ a = k + 1 ∨ a = v + 1)) s s' ∧
      s'.live = (p + 1) :: s.live ∧ 5 ≤ getMemSz s'.mem (p + 1) ∧ keyOf s'.mem (8 * p) = k ∧
      valOf s'.mem (8 * p) = v ∧
      ∀ x, Room h sz s (x + need 5 + minAllocSz) → Room h sz s' x := by
  have hty0 : ty ≠ 0 := by have := hs.bounds hty; omega
  have hkv : ¬ (k = 0 ∨ v = 0) := by
    have := hs.bounds hk
    have := hs.bounds hv
    omega
  have h5 : wsub (wadd 2 objSz) 1 = 5 := by decide
  rw [pair, object, if_neg (by omega), h5] at hr
  cases halloc : s.alloc h 5 with
  | none => simp [halloc] at hr
  | some r =>
    obtain ⟨s₁, a⟩ := r
    rw [halloc, Option.map_some, Option.bind_some] at hr
    dsimp only at hr
    by_cases ha : a = 0
    · rw [if_pos ha] at hr
      obtain ⟨-, rfl⟩ := Prod.mk.inj (Option.some.inj hr)
      exact absurd rfl h0
    obtain ⟨hs₁, hx₁, hlive₁, hsz₁⟩ := alloc_ext hs (by decide) halloc ha
    have hlow := hs₁.bounds (a := a) (by simp [hlive₁])
    obtain ⟨o, rfl⟩ : ∃ o, a = o + 1 := ⟨a - 1, by omega⟩
    have hfresh : o + 1 ∉ s.live := by
      have := hs₁.nodup
      rw [hlive₁] at this
      exact (List.nodup_cons.mp this).1
    have ho : o + 1 ∈ s₁.live := by simp [hlive₁]
    have hold : ∀ b ∈ s.live, b ∈ s₁.live := fun b hb => hlive₁ ▸ List.mem_cons_of_mem _ hb
    rw [if_neg ha] at hr
    simp only [Nat.add_sub_cancel, ne_eq, hty0, not_false_eq_true, if_true, not_true_eq_false,
      if_false] at hr
    rw [if_neg (by omega), if_neg hkv] at hr
    obtain ⟨rfl, rfl⟩ := Prod.mk.inj (Option.some.inj hr)
    -- the writes up to the key, up to the value, and the counts
    have w₁ : Wrote h sz (fun a i => a = o + 1 ∨ i = 0 ∧ a = ty + 1) s₁ ((((incRefcount ((s₁.set
        (refcount o) 0).setPtr (Object.type o) ty) ty 1).set (size o) 0).set (size o) 2).setPtr
        (contents o 0) k) :=
      ((((((Wrote.refl hs₁).set (a := o + 1) (i := 0) 0 ho (by omega) (.inl rfl)).set (a := o + 1)
        (i := 1) (8 * ty) ho (by omega) (.inl rfl)).incRefcount 1 (hold _ hty)
        (.inr ⟨rfl, rfl⟩)).set (a := o + 1) (i := 2) 0 ho (by omega) (.inl rfl)).set (a := o + 1)
        (i := 2) 2 ho (by omega) (.inl rfl)).set (a := o + 1) (i := 3) (8 * k) ho (by omega)
        (.inl rfl)
    generalize (((incRefcount ((s₁.set (refcount o) 0).setPtr (Object.type o) ty) ty 1).set
      (size o) 0).set (size o) 2) = s₂ at w₁
    have ho₂ : o + 1 ∈ (s₂.setPtr (contents o 0) k).live := w₁.live ▸ ho
    have hsz₂ : 5 ≤ getMemSz (s₂.setPtr (contents o 0) k).mem (o + 1) := by
      rw [w₁.memSz _ ho]
      exact hsz₁
    have w₂ : Wrote h sz (fun a i => a = o + 1 ∧ i = 4) (s₂.setPtr (contents o 0) k)
        ((s₂.setPtr (contents o 0) k).setPtr (contents o 1) v) :=
      (Wrote.refl w₁.sound).set (a := o + 1) (i := 4) (8 * v) ho₂ (by omega) ⟨rfl, rfl⟩
    generalize hs₃ : s₂.setPtr (contents o 0) k = s₃ at w₁ w₂ ho₂ hsz₂
    have hlive₃ : ∀ b ∈ s.live, b ∈ (s₃.setPtr (contents o 1) v).live := fun b hb =>
      w₂.live ▸ w₁.live ▸ hold b hb
    have w₃ : Wrote h sz (fun a i => i = 0 ∧ (a = k + 1 ∨ a = v + 1))
        (s₃.setPtr (contents o 1) v)
        (incRefcount (incRefcount (s₃.setPtr (contents o 1) v) k 1) v 1) :=
      ((Wrote.refl w₂.sound).incRefcount 1 (hlive₃ _ hk) ⟨rfl, .inl rfl⟩).incRefcount 1
        (hlive₃ _ hv) ⟨rfl, .inr rfl⟩
    have hx := ((hx₁.trans w₁.ext).trans w₂.ext).trans w₃.ext
    have hkey := w₂.ext _ ho₂ 3 (by omega) (by omega)
    have hval := w₃.ext _ (w₂.live ▸ ho₂) 4 (by rw [w₂.memSz _ ho₂]; omega) (by omega)
    have hkey' := w₃.ext _ (w₂.live ▸ ho₂) 3 (by rw [w₂.memSz _ ho₂]; omega) (by omega)
    have hdiv : 8 * o / 8 = o := by omega
    refine ⟨w₃.sound, fun b hb i hi hn => hx b hb i hi ?_, ?_, ?_, ?_, ?_, fun x hr => ?_⟩
    · rintro (((hf | rfl | ⟨rfl, rfl⟩) | ⟨rfl, -⟩) | ⟨rfl, hi'⟩)
      · exact hf
      · exact hfresh hb
      · exact hn ⟨rfl, .inl rfl⟩
      · exact hfresh hb
      · exact hn ⟨rfl, .inr hi'⟩
    · rw [w₃.live, w₂.live, w₁.live, hlive₁]
    · rw [w₃.memSz _ (w₂.live ▸ ho₂), w₂.memSz _ ho₂]
      exact hsz₂
    · rw [keyOf, hdiv]
      refine ptr_of_eq ((hkey'.word.trans hkey.word).trans ?_)
      rw [← hs₃]
      exact setPtr_self ..
    · rw [valOf, hdiv]
      exact ptr_of_eq (hval.word.trans (setPtr_self ..))
    · exact w₃.room x (w₂.room x (w₁.room x (alloc_room (by decide) halloc hr).2))

/-- With room for it there is a pair. -/
lemma pair_room {ty k v x : ℕ} (hty : ty + 1 ∈ s.live) (hk : k + 1 ∈ s.live)
    (hv : v + 1 ∈ s.live) (hr : Room h sz s (x + need 5 + minAllocSz)) :
    ∃ s' p, pair h ty s k v = some (s', p) ∧ p ≠ 0 ∧ p + 1 ∈ s'.live ∧ Room h sz s' x := by
  have hs := hr.sound
  have hkv : ¬ (k = 0 ∨ v = 0) := by
    have := hs.bounds hk
    have := hs.bounds hv
    omega
  have hreq : wsub (wadd 2 objSz) 1 = 5 := by decide
  obtain ⟨lost, t, U, hi⟩ := id hs
  obtain ⟨s₁, a, h1, -⟩ := alloc_meets hi (n := 5) (by decide)
  have h2 := (alloc_room (by decide) h1 hr).1
  have hlow := hs.bounds hk
  obtain ⟨hs₁, -, hlive, -⟩ := alloc_ext hs (by decide) h1 h2
  have ha := hs₁.bounds (a := a) (by simp [hlive])
  obtain ⟨s', p, hp, h0⟩ : ∃ s' p, pair h ty s k v = some (s', p) ∧ p ≠ 0 := by
    rw [pair, object, if_neg (by omega), hreq, h1, Option.map_some, Option.bind_some]
    dsimp only
    rw [if_neg h2, if_neg (by omega), if_neg hkv]
    exact ⟨_, _, rfl, by omega⟩
  obtain ⟨-, -, h3, -, -, -, h4⟩ := pair_ext hs hty hk hv hp h0
  exact ⟨s', p, hp, h0, by simp [h3], h4 x hr⟩

/-- Writes outside the heap keep its words. -/
lemma ext_outside (hs : Sound h sz s) {m' : Mem} (hm : ∀ x, h ≤ x → x < h + sz → m' x = s.mem x) :
    Ext W s ⟨m', s.live⟩ := by
  intro a ha i hi _
  obtain ⟨h1, h2, h3, h4⟩ := hs.bounds ha
  refine ⟨ha, ?_, hm _ (by omega) (by omega)⟩
  have hpsub : psub a umdsSz = a - 1 := psub_eq (by unfold umdsSz; omega) (by omega)
  rw [getMemSz, getMemSz, hpsub]
  exact congrArg (wsub · umdsSz) (hm _ (by omega) (by omega))

/-! ### The bindings -/

namespace Good

variable {S : St} {key : ℕ}

/-- The comparison of the key of an entry with `key`. -/
def against (m : Mem) (key : ℕ) (e : Entry) : ℤ :=
  threeWay (rank (text m (keyOf m e.2))) (rank (text m key))

lemma falling (hg : Good h sz st S t) (key : ℕ) : Falling (against S.heap.mem key) t.toList :=
  falling_threeWay hg.sorted _

/-- Whether the map has a key can be seen from the comparisons. -/
lemma map_eq_none (hg : Good h sz st S t) : S.map (text S.heap.mem key) = none ↔
    ∀ e ∈ t.toList, against S.heap.mem key e ≠ 0 := by
  rw [hg.map.eq_none, List.forall_mem_map]
  refine forall₂_congr fun e _ => not_congr ?_
  rw [against, threeWay_eq_zero, rank_inj]
  rfl

lemma map_eq_some (hg : Good h sz st S t) {e : Entry} (he : e ∈ t.toList)
    (h0 : against S.heap.mem key e = 0) :
    S.map (text S.heap.mem key) = some (valOf S.heap.mem e.2) := by
  rw [against, threeWay_eq_zero, rank_inj] at h0
  rw [hg.map.mem, ← h0]
  exact List.mem_map.mpr ⟨e, he, rfl⟩

/-- **The search** for a key. -/
lemma find {loc : ℕ} (hg : Good h sz st S t) (hloc : loc + 4 ≤ h ∨ h + sz ≤ loc)
    (hk : IsObj S.heap key) :
    ∃ r, avlFind setKeyfindCmp S.heap.mem loc (contents st 0) (8 * key) = some r ∧
      Found (against S.heap.mem key) r t.toList := by
  have hroot : S.heap.mem.ptr (contents st 0) = root t := ptr_of_eq hg.holds.zip.path
  by_cases ht : t = .nil
  · subst ht
    exact ⟨0, by simp [avlFind, hroot], .inl ⟨rfl, by simp⟩⟩
  -- the local node is not in the heap
  have hm : ∀ x, h ≤ x → x < h + sz →
      writeNode S.heap.mem loc 0 0 0 (8 * key) x = S.heap.mem x := fun x h1 h2 =>
    writeNode_out _ _ _ _ _ (by
      rintro ⟨y, hy, h3, h4⟩
      rw [List.mem_singleton] at hy
      omega)
  have hx : Ext (fun _ _ => False) S.heap ⟨writeNode S.heap.mem loc 0 0 0 (8 * key), S.heap.live⟩ :=
    ext_outside hg.sound hm
  have hh : Holds (writeNode S.heap.mem loc 0 0 0 (8 * key)) (contents st 0) t := by
    refine hg.holds.congr (hm _ ?_ ?_) fun a ha => ?_
    · have := hg.sound.bounds hg.set.1
      unfold contents
      omega
    · have := hg.sound.bounds hg.set.1
      have := hg.set.2
      unfold contents
      omega
    · obtain ⟨nd, hnd, h1, h2⟩ := ha
      have h3 := hg.nodes nd hnd
      have h4 := hg.sound.bounds h3.1
      exact hm _ (by omega) (by omega)
  have hr0 : root t ≠ 0 := fun h0 => ht (height_eq_zero_of_root hg.holds.zip.tree h0)
  simp only [avlFind, hroot, hr0, if_false]
  have hfuel := hg.tree.fuel_lt
  refine findLoop_spec hh.zip.tree (fun e he => ?_) (hg.falling key) ht (by omega)
  have hd : dataPtr (writeNode S.heap.mem loc 0 0 0 (8 * key)) loc = key := by
    simp [dataPtr, data, writeNode_apply]
  have hp := (hg.pairs e he).ext hx (fun _ _ => id) (fun _ _ => id) fun nd hnd => .inl hnd
  have htext := (hk.ext hx fun _ _ => id).2
  rw [setKeyfindCmp, objCmp_eq, hd, dataPtr, (data_of_mem hh.zip.tree he).2]
  change threeWay (rank (binding (writeNode S.heap.mem loc 0 0 0 (8 * key)) e.2).1) _ = _
  rw [hp.2.1, htext]
  rfl

lemma exists_entry (hg : Good h sz st S t) {nd : ℕ}
    (hn : IsNode S.heap.mem (contents st 0) nd) :
    ∃ e ∈ t.toList, e.1 = nd ∧ data S.heap.mem nd = e.2 := by
  obtain ⟨e, he, rfl⟩ := List.mem_map.mp ((addrs_perm t).subset ((isNode_iff hg.holds).mp hn))
  exact ⟨e, he, rfl, (data_of_mem hg.holds.zip.tree he).2⟩

/-- The words in use are those of the set, of the nodes, of the pairs and of their keys. -/
lemma inUse_cases (hg : Good h sz st S t) {a i : ℕ} (hu : InUse S.heap.mem st a i) :
    a = st + 1 ∧ i = 3 ∨ a ∈ addrs t ∨
      ∃ e ∈ t.toList, (a = e.2 / 8 + 1 ∨ a = keyOf S.heap.mem e.2 + 1) ∧ i ≠ 0 := by
  cases hu with
  | root => exact .inl ⟨rfl, rfl⟩
  | node hn hi => exact .inr (.inl ((isNode_iff hg.holds).mp hn))
  | pair hn hi =>
    obtain ⟨e, he, -, hd⟩ := hg.exists_entry hn
    exact .inr (.inr ⟨e, he, .inl (by rw [dataPtr, hd]), by omega⟩)
  | key hn hi =>
    obtain ⟨e, he, -, hd⟩ := hg.exists_entry hn
    exact .inr (.inr ⟨e, he, .inr (by rw [hd]), by omega⟩)

/-- A block that is not a part of the set has no words in use. -/
lemma not_inUse (hg : Good h sz st S t) {nd : ℕ} (hne : nd ∉ addrs t) (hst : nd ≠ st + 1)
    (hold : ∀ e ∈ t.toList, IsPair S.heap st (nd :: addrs t) e.2) {a i : ℕ}
    (hu : InUse S.heap.mem st a i) : a ≠ nd := by
  rintro rfl
  rcases hg.inUse_cases hu with ⟨h1, -⟩ | h1 | ⟨e, he, h1 | h1, -⟩
  · exact hst h1
  · exact hne h1
  · exact (hold e he).not_node (by simp [← h1])
  · exact (hold e he).key_not_node (by simp [← h1])

/-- **The insertion** of a pair whose key is `key`. -/
lemma insert (hg : Good h sz st S t) {nd d : ℕ} (hnd : nd ∈ S.heap.live)
    (hsz : 4 ≤ getMemSz S.heap.mem nd) (hne : nd ∉ addrs t) (hst : nd ≠ st + 1)
    (hd : IsPair S.heap st (nd :: addrs t) d)
    (hold : ∀ e ∈ t.toList, IsPair S.heap st (nd :: addrs t) e.2) :
    (S.map (binding S.heap.mem d).1 ≠ none ∧ ∃ m',
      avlInsertNode setKeycmp S.heap.mem (contents st 0) nd d = some (m', 1) ∧
        Wrote h sz (fun a _ => a = nd) S.heap ⟨m', S.heap.live⟩) ∨
    S.map (binding S.heap.mem d).1 = none ∧ ∃ m' t',
      avlInsertNode setKeycmp S.heap.mem (contents st 0) nd d = some (m', 0) ∧
        Good h sz st ⟨⟨m', S.heap.live⟩, Function.update S.map (binding S.heap.mem d).1
          (some (binding S.heap.mem d).2)⟩ t' := by
  have hsep := hg.tree.sep hnd hsz hne hst
  have h0 : nd ≠ 0 := by have := hg.sound.bounds hnd; omega
  set key := keyOf S.heap.mem d with hkey
  have hw := wrote_node d hg.sound hnd hsz
  have hsame : ∀ d', IsPair S.heap st (nd :: addrs t) d' →
      binding (writeNode S.heap.mem nd 3 0 0 d) d' = binding S.heap.mem d' := by
    intro d' hd'
    refine (hd'.ext hw.ext (fun i _ heq => hd'.not_node ?_) (fun i _ heq => hd'.key_not_node ?_)
      fun x hx => .inl hx).2.1
    · rw [heq]; exact List.mem_cons_self
    · rw [heq]; exact List.mem_cons_self
  have hcmp : ∀ e ∈ t.toList, setKeycmp (writeNode S.heap.mem nd 3 0 0 d) e.1 nd =
      against S.heap.mem key e := by
    intro e he
    have hh := hg.holds.writeNode hsep 3 0 0 d
    have hdn : dataPtr (writeNode S.heap.mem nd 3 0 0 d) nd = d / 8 := by
      simp [dataPtr, data, writeNode_apply]
    rw [setKeycmp, objCmp_eq, hdn, dataPtr, (data_of_mem hh.zip.tree he).2]
    change threeWay (rank (binding (writeNode S.heap.mem nd 3 0 0 d) e.2).1)
      (rank (binding (writeNode S.heap.mem nd 3 0 0 d) d).1) = _
    rw [hsame _ (hold e he), hsame _ hd]
    rfl
  rcases avlInsertNode_spec hg.holds h0 hsep hcmp (hg.falling key) hg.tree.fuel_lt with
    ⟨⟨e, he, he0⟩, h1⟩ | ⟨m', t', L₁, L₂, h1, h2, h3, h4, h5, h6, h7⟩
  · refine .inl ⟨?_, _, h1, hw⟩
    change S.map (text S.heap.mem key) ≠ none
    rw [hg.map_eq_some he he0]
    exact Option.some_ne_none _
  · have hnone : S.map (text S.heap.mem key) = none := by
      rw [hg.map_eq_none]
      intro e he
      rw [h3, List.mem_append] at he
      rcases he with he | he
      · rw [h5 e he]; omega
      · rw [h6 e he]; omega
    have hnodes : ∀ x ∈ nd :: addrs t, x ∈ S.heap.live ∧ 4 ≤ getMemSz S.heap.mem x :=
      List.forall_mem_cons.mpr ⟨⟨hnd, hsz⟩, hg.nodes⟩
    have hperm : (addrs t').Perm (nd :: addrs t) := by
      refine (addrs_perm t').trans (.trans ?_ ((addrs_perm t).symm.cons nd))
      rw [h3, h4, List.map_append, List.map_append, List.map_cons]
      exact List.perm_middle
    have hw' := hg.tree.wrote hnodes h7
    have hset := hw'.memSz _ hg.set.1
    have hpair : ∀ d', IsPair S.heap st (nd :: addrs t) d' →
        IsPair ⟨m', S.heap.live⟩ st (addrs t') d' ∧
          binding m' d' = binding S.heap.mem d' := by
      intro d' hd'
      have := hd'.ext (M := addrs t') hw'.ext (fun i hi hW => ?_) (fun i hi hW => ?_)
        fun x hx => .inl (hperm.subset hx)
      · exact ⟨this.1, this.2.1⟩
      · rcases hW with hW | ⟨hW, -⟩
        · exact hd'.not_node hW
        · exact hd'.ne_set (by omega)
      · rcases hW with hW | ⟨hW, -⟩
        · exact hd'.key_not_node hW
        · exact hd'.key_ne_set (by omega)
    have hsnd : t'.toList.map Prod.snd = L₁.map Prod.snd ++ d :: L₂.map Prod.snd := by
      rw [h4, List.map_append, List.map_cons]
    have hsnd' : t.toList.map Prod.snd = L₁.map Prod.snd ++ L₂.map Prod.snd := by
      rw [h3, List.map_append]
    refine .inr ⟨hnone, m', t', h1, of_bindings (binding S.heap.mem) hw'.sound ⟨hg.set.1, ?_⟩ h2
      (fun x hx => ?_) (fun hx => ?_) (fun d' hd' => hpair d' ?_) ?_ ?_⟩
    · rw [hset]
      exact hg.set.2
    · have hx' := hnodes x (hperm.subset hx)
      exact ⟨hx'.1, by rw [hw'.memSz _ hx'.1]; exact hx'.2⟩
    · rcases List.mem_cons.mp (hperm.subset hx) with heq | hx
      · exact hst heq.symm
      · exact hg.set_not_node hx
    · rw [hsnd, List.mem_append, List.mem_cons] at hd'
      rcases hd' with hd' | rfl | hd'
      · obtain ⟨e, he, rfl⟩ := List.mem_map.mp hd'
        exact hold e (by simp [h3, he])
      · exact hd
      · obtain ⟨e, he, rfl⟩ := List.mem_map.mp hd'
        exact hold e (by simp [h3, he])
    · -- the new key is between those before and those after it
      have hs := hg.sorted'
      rw [hsnd', List.map_append] at hs
      rw [hsnd, List.map_append, List.map_cons]
      obtain ⟨hs1, hs2, hs3⟩ := List.pairwise_append.mp hs
      have hlow : ∀ x ∈ (L₁.map Prod.snd).map fun d => rank (binding S.heap.mem d).1,
          x < rank (binding S.heap.mem d).1 := by
        intro x hx
        obtain ⟨d', hd', rfl⟩ := List.mem_map.mp hx
        obtain ⟨e, he, rfl⟩ := List.mem_map.mp hd'
        exact threeWay_lt (h5 e he)
      have hhigh : ∀ x ∈ (L₂.map Prod.snd).map fun d => rank (binding S.heap.mem d).1,
          rank (binding S.heap.mem d).1 < x := by
        intro x hx
        obtain ⟨d', hd', rfl⟩ := List.mem_map.mp hx
        obtain ⟨e, he, rfl⟩ := List.mem_map.mp hd'
        exact threeWay_gt (h6 e he)
      refine List.pairwise_append.mpr
        ⟨hs1, List.pairwise_cons.mpr ⟨hhigh, hs2⟩, fun x hx y hy => ?_⟩
      rcases List.mem_cons.mp hy with rfl | hy
      · exact hlow x hx
      · exact hs3 x hx y hy
    · have hm := hg.map'
      rw [hsnd', List.map_append] at hm
      rw [hsnd, List.map_append, List.map_cons]
      exact hm.insert hnone

/-- What a change of counts of references leaves. -/
lemma counts {o : ℕ → Prop} (hg : Good h sz st S t) (hsound : Sound h sz s')
    (hx : Ext (fun a i => i = 0 ∧ o a) S.heap s') (ho : ∀ a ∈ addrs t, ¬ o a) :
    Good h sz st ⟨s', S.map⟩ t := by
  refine hg.ext hsound hx fun a i hu hW => ?_
  rcases hg.inUse_cases hu with ⟨-, h1⟩ | h1 | ⟨e, -, -, h1⟩
  · omega
  · exact ho a h1 hW.2
  · exact h1 hW.1

/-- **`set_add_str_key`**, when its allocations succeed. -/
lemma add {ty val p nd : ℕ} {s₁ s₂ : HSt} (hg : Good h sz st S t) (hty : ty + 1 ∈ S.heap.live)
    (htyn : ty + 1 ∉ addrs t) (hk : IsObj S.heap key) (hks : key ≠ st) (hkn : key + 1 ∉ addrs t)
    (hv : val + 1 ∈ S.heap.live) (hvn : val + 1 ∉ addrs t)
    (hp : pair h ty S.heap key val = some (s₁, p)) (hp0 : p ≠ 0)
    (hn : (incRefcount s₁ p 1).alloc h 4 = some (s₂, nd)) (hn0 : nd ≠ 0) :
    (S.map (text S.heap.mem key) ≠ none ∧ ∃ s',
      setAddStrKey h ty S.heap st key val = some (s', 1) ∧ Good h sz st ⟨s', S.map⟩ t) ∨
    S.map (text S.heap.mem key) = none ∧ ∃ s' t',
      setAddStrKey h ty S.heap st key val = some (s', 0) ∧
        Good h sz st ⟨s', Function.update S.map (text S.heap.mem key) (some val)⟩ t' := by
  obtain ⟨hs₁, hx₁, hlive₁, hsz₁, hkey₁, hval₁, -⟩ := pair_ext hg.sound hty hk.live hv hp hp0
  have hfresh₁ : p + 1 ∉ S.heap.live := by
    have := hs₁.nodup
    rw [hlive₁] at this
    exact (List.nodup_cons.mp this).1
  have hp₁ : p + 1 ∈ s₁.live := by simp [hlive₁]
  have hg₁ : Good h sz st ⟨s₁, S.map⟩ t := by
    refine hg.counts hs₁ hx₁ ?_
    rintro a ha (rfl | rfl | rfl)
    · exact htyn ha
    · exact hkn ha
    · exact hvn ha
  -- the pair is counted, and a node allocated
  have w₂ : Wrote h sz (fun a i => i = 0 ∧ a = p + 1) s₁ (incRefcount s₁ p 1) :=
    (Wrote.refl hs₁).incRefcount 1 hp₁ ⟨rfl, rfl⟩
  have hpn : p + 1 ∉ addrs t := fun hmem => hfresh₁ (hg.nodes _ hmem).1
  have hg₂ := hg₁.counts w₂.sound w₂.ext fun a ha heq => hpn (heq ▸ ha)
  obtain ⟨hs₃, hx₃, hlive₃, hsz₃⟩ := alloc_ext w₂.sound (by decide) hn hn0
  have hg₃ := hg₂.ext hs₃ hx₃ fun _ _ _ => id
  have hfresh₃ : nd ∉ (incRefcount s₁ p 1).live := by
    have := hs₃.nodup
    rw [hlive₃] at this
    exact (List.nodup_cons.mp this).1
  have hnd : nd ∈ s₂.live := by simp [hlive₃]
  have hnn : nd ∉ addrs t := fun hmem => hfresh₃ (hg₂.nodes _ hmem).1
  have hns : nd ≠ st + 1 := fun heq => hfresh₃ (heq ▸ hg₂.set.1)
  have hold : ∀ e ∈ t.toList, IsPair s₂ st (nd :: addrs t) e.2 := by
    intro e he
    refine ((hg₂.pairs e he).ext hx₃ (fun _ _ => id) (fun _ _ => id) fun x hx => ?_).1
    rcases List.mem_cons.mp hx with rfl | hx
    · exact .inr hfresh₃
    · exact .inl hx
  -- the new pair
  have hdiv : 8 * p / 8 = p := by omega
  have hpair₁ : IsPair s₁ st (addrs t) (8 * p) := by
    have hko := (hk.ext hx₁ fun i _ h0 => absurd h0.1 (by omega)).1
    refine ⟨by rwa [hdiv], by rwa [hdiv], by rw [hdiv]; rintro rfl; exact hfresh₁ hg.set.1,
      by rwa [hdiv], by rwa [hkey₁], by rwa [hkey₁], by rwa [hkey₁]⟩
  have hpair₂ := hpair₁.ext (M := addrs t) w₂.ext (fun i _ h0 => absurd h0.1 (by omega))
    (fun i _ h0 => absurd h0.1 (by omega)) fun x hx => .inl hx
  have hpair₃ := hpair₂.1.ext (M := nd :: addrs t) hx₃ (fun _ _ => id) (fun _ _ => id)
    fun x hx => (List.mem_cons.mp hx).elim (fun heq => .inr (heq ▸ hfresh₃)) .inl
  have hbind : binding s₂.mem (8 * p) = (text S.heap.mem key, val) := by
    rw [hpair₃.2.1, hpair₂.2.1, binding, hkey₁, hval₁]
    rw [(hk.ext hx₁ fun i _ h0 => absurd h0.1 (by omega)).2]
  have hrun : ∀ m ret, avlInsertNode setKeycmp s₂.mem (contents st 0) nd (8 * p) = some (m, ret) →
      setAddStrKey h ty S.heap st key val =
        (if ret ≠ 0 then HSt.free ⟨m, s₂.live⟩ h nd else some ⟨m, s₂.live⟩).map fun s =>
          (s, ret) := by
    intro m ret h2
    rw [setAddStrKey, hp, Option.bind_some]
    simp only [setAdd, ne_eq, hp0, not_false_eq_true, if_true, avlInsert]
    rw [hn, Option.bind_some]
    simp only [hn0, if_false]
    rw [h2, Option.bind_some]
  have h1 := hg₃.insert hnd hsz₃ hnn hns hpair₃.1 hold
  simp only [hbind] at h1
  rcases h1 with ⟨h1, m', h2, h3⟩ | ⟨h1, m', t', h2, h3⟩
  · -- the node is given back
    obtain ⟨s', h4, h5, h6, -⟩ := free_ext h3.sound (a := nd) hnd
    refine .inl ⟨h1, s', ?_, ?_⟩
    · rw [hrun _ _ h2]
      simp only [ne_eq, one_ne_zero, not_false_eq_true, if_true]
      rw [h4, Option.map_some]
    · exact hg₃.ext h5 (h3.ext.trans h6) fun a i hu hW =>
        hg₃.not_inUse hnn hns hold hu (hW.elim id id)
  · refine .inr ⟨h1, _, t', ?_, h3⟩
    rw [hrun _ _ h2]
    rfl

/-- **`set_remove_str_key`**. -/
lemma remove {loc : ℕ} (hg : Good h sz st S t) (hloc : loc + 4 ≤ h ∨ h + sz ≤ loc)
    (hk : IsObj S.heap key) :
    (S.map (text S.heap.mem key) = none ∧
      setRemoveStrKey h loc S.heap st key = some (S.heap, 0)) ∨
    ∃ v s' p t', S.map (text S.heap.mem key) = some v ∧
      setRemoveStrKey h loc S.heap st key = some (s', p) ∧ p ≠ 0 ∧ p + 1 ∈ s'.live ∧
      binding s'.mem (8 * p) = (text S.heap.mem key, v) ∧
      Good h sz st ⟨s', Function.update S.map (text S.heap.mem key) none⟩ t' := by
  obtain ⟨r, h1, h2⟩ := hg.find hloc hk
  rw [setRemoveStrKey, h1, Option.bind_some]
  rcases h2 with ⟨rfl, h2⟩ | ⟨e, he, rfl, h2⟩
  · exact .inl ⟨hg.map_eq_none.mpr h2, by simp⟩
  obtain ⟨he0, hd⟩ := data_of_mem hg.holds.zip.tree he
  obtain ⟨π, b, l, r, ht⟩ := Path.exists_fill he
  obtain ⟨m', q, t', h3, h4, h5, h6⟩ := avlDeleteNode_spec hg.holds ht hg.tree.fuel_lt
  have hsome := hg.map_eq_some he h2
  have hw := hg.tree.wrote hg.nodes h6
  -- the node taken out is given back
  have hfst := h5.fst
  have hperm : (q :: addrs t').Perm (addrs t) :=
    ((addrs_perm t').cons q).trans (hfst.symm.trans (addrs_perm t).symm)
  have hq := hg.nodes q (hperm.subset List.mem_cons_self)
  have hq0 : q ≠ 0 := by have := hg.sound.bounds hq.1; omega
  obtain ⟨s', h7, h8, h9, h10⟩ := free_ext hw.sound (a := q) hq.1
  rw [if_neg he0, h3, Option.bind_some]
  simp only [ne_eq, hq0, not_false_eq_true, if_true]
  rw [h7, Option.map_some]
  have hx := hw.ext.trans h9
  have hqn : ∀ x ∈ addrs t', x ≠ q := by
    have hpw : (q :: addrs t').Pairwise Apart :=
      (hperm.pairwise_iff Apart.symm).mpr (by simpa using hg.holds.zip.sep.1)
    intro x hx' heq
    rcases (List.pairwise_cons.mp hpw).1 x hx' with h | h <;> omega
  have hsub : ∀ x ∈ addrs t', x ∈ addrs t := fun x hx' =>
    hperm.subset (List.mem_cons_of_mem _ hx')
  have hpair : ∀ e ∈ t.toList, IsPair s' st (addrs t') e.2 ∧
      binding s'.mem e.2 = binding S.heap.mem e.2 := by
    intro e' he'
    have hp := hg.pairs e' he'
    have := hp.ext (M := addrs t') hx (fun i hi hW => ?_) (fun i hi hW => ?_)
      fun x hx' => .inl (hsub x hx')
    · exact ⟨this.1, this.2.1⟩
    · rcases hW with (hW | hW) | hW
      · exact hp.not_node hW
      · exact hp.ne_set (by omega)
      · exact hp.not_node (hW ▸ hperm.subset List.mem_cons_self)
    · rcases hW with (hW | hW) | hW
      · exact hp.key_not_node hW
      · exact hp.key_ne_set (by omega)
      · exact hp.key_not_node (hW ▸ hperm.subset List.mem_cons_self)
  have hsq : st + 1 ≠ q := fun heq => hg.set_not_node (heq ▸ hperm.subset List.mem_cons_self)
  have hset := h9 _ hg.set.1 3 (by have := hw.memSz _ hg.set.1; have := hg.set.2; omega) hsq
  have hnode : ∀ nd ∈ addrs t', ∀ i < 4, Survives ⟨m', S.heap.live⟩ s' nd i := by
    intro nd hnd i hi
    have h11 := hg.nodes nd (hsub nd hnd)
    have h12 := hw.memSz nd h11.1
    exact h9 nd h11.1 i (by omega) (hqn nd hnd)
  obtain ⟨v, A, B, hv, hA, hB⟩ := h5.split
  obtain rfl : v = e.2 := (data_of_mem hg.holds.zip.tree hv).2.symm.trans hd
  have hdiv : 8 * (e.2 / 8) / 8 = e.2 / 8 := by omega
  have hbind : binding s'.mem (8 * (e.2 / 8)) = binding s'.mem e.2 := by
    rw [binding, binding, keyOf, valOf, hdiv]
    rfl
  have hp := hpair e he
  have hlive : e.2 / 8 ≠ 0 := by
    have := hg.sound.bounds (hg.pairs e he).live
    omega
  have hres : dataPtr S.heap.mem e.1 = e.2 / 8 := by rw [dataPtr, hd]
  have htext : (binding S.heap.mem e.2).1 = text S.heap.mem key := by
    rw [against, threeWay_eq_zero, rank_inj] at h2
    exact h2
  refine .inr ⟨valOf S.heap.mem e.2, s', e.2 / 8, t', hsome, by rw [hres], hlive, hp.1.live, ?_,
    of_bindings (binding S.heap.mem) h8 ⟨hset.live, ?_⟩ (h4.congr hset.word ?_) (fun nd hnd => ?_)
    (fun hmem => hg.set_not_node (hsub _ hmem)) (fun d' hd' => ?_) ?_ ?_⟩
  · rw [hbind, hp.2, ← htext]
    rfl
  · rw [hset.memSz, hw.memSz _ hg.set.1]
    exact hg.set.2
  · rintro a ⟨nd, hnd, h11, h12⟩
    have := (hnode nd hnd (a - nd) (by omega)).word
    rwa [show nd + (a - nd) = a by omega] at this
  · have h11 := hnode nd hnd 0 (by omega)
    have h12 := hg.nodes nd (hsub nd hnd)
    exact ⟨h11.live, by rw [h11.memSz, hw.memSz nd h12.1]; exact h12.2⟩
  · rw [hB] at hd'
    have hmem : d' ∈ t.toList.map Prod.snd := by
      rw [hA]
      exact (List.sublist_cons_self _ B).append_left A |>.subset hd'
    obtain ⟨e', he', rfl⟩ := List.mem_map.mp hmem
    exact hpair e' he'
  · have hs := hg.sorted'
    rw [hA] at hs
    rw [hB]
    exact hs.sublist (((List.sublist_cons_self _ B).append_left A).map _)
  · have hm := hg.map'
    rw [hA, List.map_append, List.map_cons] at hm
    rw [hB, List.map_append, ← htext]
    exact hm.erase

end Good

end LispMachine.SetsInv
