import LispMachine.AvlDelete
import LispMachine.Lib.Run
import Mathlib.Data.List.Perm.Subperm

/-!
Runs of insertions and deletions on one tree, with a comparator that orders the nodes by
their data.
-/

namespace LispMachine.AvlTree

open LispMachine.Memory LispMachine.AvlCode LispMachine.AvlRepr LispMachine.AvlRotate
open LispMachine.AvlInsert LispMachine.AvlDelete LispMachine.Lib.Run
open LispMachine.Lib.BalTree LispMachine.Lib.BalTree.BTree

/-- The comparator compares the data of the nodes by `c`, which orders them totally: `1` is
less, `-1` is greater, and data compared as equal compare alike with others. -/
structure Ordered (cmp : Cmp) (c : ℕ → ℕ → ℤ) : Prop where
  reads : ∀ m a b, cmp m a b = c (data m a) (data m b)
  isBal : ∀ x y, IsBal (c x y)
  swap : ∀ x y, c y x = -c x y
  trans : ∀ x y z, c x y = 1 → c y z = 1 → c x z = 1
  equal : ∀ x y z, c x y = 0 → c x z = c y z

/-- Increasing data. -/
def Sorted (c : ℕ → ℕ → ℤ) (L : List ℕ) : Prop := L.Pairwise fun x y => c x y = 1

variable {cmp : Cmp} {c : ℕ → ℕ → ℤ} {m : Mem} {tr : ℕ}

/-- The comparisons of a datum with increasing ones do not increase. -/
lemma Sorted.falling (hc : Ordered cmp c) {L : List Entry} (v : ℕ)
    (h : Sorted c (L.map Prod.snd)) : Falling (fun e => c e.2 v) L := by
  refine ⟨(List.pairwise_map.mp h).imp fun {a b} hab => ?_, fun e _ => hc.isBal _ _⟩
  change c b.2 v ≤ c a.2 v
  rcases hc.isBal b.2 v with hb | hb | hb
  · rcases hc.isBal a.2 v with ha | ha | ha <;> omega
  · have h1 := hc.equal _ _ a.2 hb
    rw [hc.swap a.2 b.2, hc.swap a.2 v, hab] at h1
    omega
  · have := hc.trans _ _ _ hab hb
    omega

/-! ### How long a loop can take -/

/-- Nodes that do not overlap are no more than fit into the address space. -/
lemma length_le_of_apart {L : List ℕ} {N : ℕ} (h : L.Pairwise Apart)
    (hN : ∀ p ∈ L, p + 4 ≤ N) : 4 * L.length ≤ N := by
  have hnd : (L.map (· / 4)).Nodup :=
    List.pairwise_map.mpr (h.imp fun {p q} hpq => by rcases hpq with h | h <;> omega)
  have hsub : L.map (· / 4) ⊆ List.range (N / 4) := fun x hx => by
    obtain ⟨p, hp, rfl⟩ := List.mem_map.mp hx
    have := hN p hp
    simp only [List.mem_range]
    omega
  have := (List.Nodup.subperm hnd hsub).length_le
  simp only [List.length_map, List.length_range] at this
  omega

/-- The height of a tree in memory leaves enough rounds for every loop. -/
lemma height_lt_fuel {t : T} (h : Holds m tr t) (hN : ∀ p ∈ addrs t, p + 4 ≤ addrSpace) :
    t.height + 1 < fuel := by
  have h1 := length_le_of_apart (by simpa using h.zip.sep.1) hN
  have h2 := (addrs_perm t).length_eq
  have h3 := t.height_le_length
  simp only [List.length_map] at h2
  unfold fuel
  unfold addrSpace at h1 ⊢
  omega

/-! ### Finding a node -/

/-- What the nodes of a tree hold as data. -/
lemma data_of_mem {t : T} {par : ℕ} (h : Repr m t par) {e : Entry} (he : e ∈ t.toList) :
    e.1 ≠ 0 ∧ data m e.1 = e.2 := by
  induction t generalizing par with
  | nil => simp at he
  | node b l e' r ihl ihr =>
    obtain ⟨p, v⟩ := e'
    obtain ⟨p0, p1, p2, p3, p4, hl, hr⟩ := h
    simp only [toList, List.mem_append, List.mem_cons] at he
    rcases he with he | rfl | he
    · exact ihl hl he
    · exact ⟨p0, p4⟩
    · exact ihr hr he

/-- What the search for an equal value among those of `L` ends with. -/
def Found (c : Entry → ℤ) (r : ℕ) (L : List Entry) : Prop :=
  r = 0 ∧ (∀ e ∈ L, c e ≠ 0) ∨ ∃ e ∈ L, e.1 = r ∧ c e = 0

lemma Found.mono {c : Entry → ℤ} {r : ℕ} {L L' : List Entry} (h : Found c r L)
    (hs : ∀ e ∈ L, e ∈ L') (hn : ∀ e ∈ L', e ∈ L ∨ c e ≠ 0) : Found c r L' := by
  rcases h with ⟨h0, h⟩ | ⟨e, he, h⟩
  · exact .inl ⟨h0, fun e he => (hn e he).elim (h e) id⟩
  · exact .inr ⟨e, hs e he, h⟩

lemma findLoop_spec {c : Entry → ℤ} {key n par : ℕ} {t : T} (h : Repr m t par)
    (hc : ∀ e ∈ t.toList, cmp m e.1 key = c e) (hs : Falling c t.toList) (h0 : t ≠ .nil)
    (hn : t.height ≤ n) : ∃ r, findLoop cmp m key n (root t) = some r ∧ Found c r t.toList := by
  induction t generalizing n par with
  | nil => exact absurd rfl h0
  | node b l e r ihl ihr =>
    obtain ⟨n, rfl⟩ : ∃ k, n = k + 1 := ⟨n - 1, by simp only [height] at hn; omega⟩
    obtain ⟨p, v⟩ := e
    obtain ⟨p0, p1, p2, p3, p4, hl, hr⟩ := h
    simp only [height] at hn
    have hL : child m .L p = root l := ptr_of_eq p2
    have hR : child m .R p = root r := ptr_of_eq p3
    have hfall := hs
    obtain ⟨hs1, hs2⟩ := hs
    simp only [toList, List.pairwise_append, List.pairwise_cons, List.mem_append,
      List.mem_cons] at hs1 hs2
    obtain ⟨-, ⟨hpr, -⟩, hlp⟩ := hs1
    have hce := hc (p, v) (by simp [toList])
    rw [root, findLoop, hce, hL, hR]
    have hmem : ∀ e, e ∈ (BTree.node b l (p, v) r).toList ↔
        e ∈ l.toList ∨ e = (p, v) ∨ e ∈ r.toList := fun e => by simp [toList]
    rcases hs2 (p, v) (.inr (.inl rfl)) with he | he | he
    · -- what is on the right comes after the key as well
      have hl' : ∀ e ∈ (BTree.node b l (p, v) r).toList, e ∈ l.toList ∨ c e ≠ 0 := by
        intro e hm
        rcases (hmem e).mp hm with h | rfl | h
        · exact .inl h
        · right; omega
        · have := hpr e h
          right; omega
      by_cases hl0 : l = .nil
      · subst hl0
        exact ⟨0, by simp [he], .inl ⟨rfl, fun e h => (hl' e h).resolve_left (by simp)⟩⟩
      · obtain ⟨q, h1, h2⟩ := ihl hl (fun e he => hc e (by simp [toList, he])) hfall.left hl0
          (n := n) (by omega)
        have hrl : root l ≠ 0 := fun h => hl0 (height_eq_zero_of_root hl h)
        exact ⟨q, by simpa [he, hrl] using h1, h2.mono (fun e h => (hmem e).mpr (.inl h)) hl'⟩
    · exact ⟨p, by simp [he], .inr ⟨(p, v), by simp [toList], rfl, he⟩⟩
    · -- what is on the left comes before the key as well
      have hr' : ∀ e ∈ (BTree.node b l (p, v) r).toList, e ∈ r.toList ∨ c e ≠ 0 := by
        intro e hm
        rcases (hmem e).mp hm with h | rfl | h
        · have := hlp e h _ (.inl rfl)
          right; omega
        · right; omega
        · exact .inl h
      by_cases hr0 : r = .nil
      · subst hr0
        exact ⟨0, by simp [he], .inl ⟨rfl, fun e h => (hr' e h).resolve_left (by simp)⟩⟩
      · obtain ⟨q, h1, h2⟩ := ihr hr (fun e he => hc e (by simp [toList, he])) hfall.right hr0
          (n := n) (by omega)
        have hrr : root r ≠ 0 := fun h => hr0 (height_eq_zero_of_root hr h)
        exact ⟨q, by simpa [he, hrr] using h1,
          h2.mono (fun e h => (hmem e).mpr (.inr (.inr h))) hr'⟩

/-- **The search** for a datum ends at a node with an equal one, or with null if there is
none. -/
theorem avlFind_spec (hc : Ordered cmp c) {t : T} {loc x : ℕ} (h : Holds m tr t)
    (hs : Sorted c (t.toList.map Prod.snd)) (hsep : Sep tr (loc :: addrs t))
    (hn : t.height + 1 < fuel) :
    ∃ r, avlFind cmp m loc tr x = some r ∧ Found (fun e => c e.2 x) r t.toList := by
  have hroot : m.ptr tr = root t := ptr_of_eq h.zip.path
  by_cases ht : t = .nil
  · subst ht
    exact ⟨0, by simp [avlFind, hroot], .inl ⟨rfl, by simp⟩⟩
  · have hh := h.writeNode hsep 0 0 0 x
    have hr0 : root t ≠ 0 := fun h0 => ht (height_eq_zero_of_root h.zip.tree h0)
    simp only [avlFind, hroot, hr0, if_false]
    refine findLoop_spec hh.zip.tree (fun e he => ?_) (hs.falling hc x) ht (by omega)
    rw [hc.reads, (data_of_mem hh.zip.tree he).2]
    simp [data, writeNode_apply]

/-! ### Runs -/

/-- The memory, and what its user knows of the tree: the nodes handed in and not handed back,
and the data inserted and not deleted. -/
structure St where
  mem : Mem
  nodes : List ℕ
  data : List ℕ

/-- One operation: the insertion of a node, the deletion of a node of the tree, or a change of
memory that is not the tree's. -/
inductive Next (cmp : Cmp) (tr : ℕ) (s : St) : St → Prop
  | insert {nd v : ℕ} {m' : Mem} (h0 : nd ≠ 0) (hroom : nd + 4 ≤ addrSpace)
    (hsep : Sep tr (nd :: s.nodes)) (h : avlInsertNode cmp s.mem tr nd v = some (m', 0)) :
    Next cmp tr s ⟨m', nd :: s.nodes, v :: s.data⟩
  | refuse {nd v : ℕ} {m' : Mem} (h0 : nd ≠ 0) (hroom : nd + 4 ≤ addrSpace)
    (hsep : Sep tr (nd :: s.nodes)) (h : avlInsertNode cmp s.mem tr nd v = some (m', 1)) :
    Next cmp tr s ⟨m', s.nodes, s.data⟩
  | delete {p q : ℕ} {m' : Mem} (hp : p ∈ s.nodes)
    (h : avlDeleteNode s.mem tr p = some (m', q)) :
    Next cmp tr s ⟨m', s.nodes.erase q, s.data.erase (data s.mem p)⟩
  | other {m' : Mem} (h : ∀ a, a = tr ∨ Within a s.nodes → m' a = s.mem a) :
    Next cmp tr s ⟨m', s.nodes, s.data⟩

/-- The runs on the tree at `tr`, from the empty tree. -/
def treeSystem (cmp : Cmp) (tr : ℕ) : System St where
  init s := s.mem tr = 0 ∧ s.nodes = [] ∧ s.data = []
  step := Next cmp tr

/-- The memory holds the tree `t` of just the nodes and the data that its user expects. -/
structure Good (c : ℕ → ℕ → ℤ) (tr : ℕ) (s : St) (t : T) : Prop where
  holds : Holds s.mem tr t
  nodes : (addrs t).Perm s.nodes
  data : (t.toList.map Prod.snd).Perm s.data
  sorted : Sorted c (t.toList.map Prod.snd)
  room : ∀ p ∈ s.nodes, p + 4 ≤ addrSpace

namespace Good

variable {s : St} {t : T}

lemma fuel_lt (h : Good c tr s t) : t.height + 1 < fuel :=
  height_lt_fuel h.holds fun p hp => h.room p (h.nodes.subset hp)

lemma sep {nd : ℕ} (h : Good c tr s t) (hsep : Sep tr (nd :: s.nodes)) :
    Sep tr (nd :: addrs t) :=
  hsep.perm (h.nodes.symm.cons nd)

lemma exists_data {P : ℕ → Prop} (h : Good c tr s t) :
    (∃ e ∈ t.toList, P e.2) ↔ ∃ x ∈ s.data, P x := by
  constructor
  · rintro ⟨e, he, hx⟩
    exact ⟨e.2, h.data.subset (List.mem_map_of_mem he), hx⟩
  · rintro ⟨x, hx, h'⟩
    obtain ⟨e, he, rfl⟩ := List.mem_map.mp (h.data.symm.subset hx)
    exact ⟨e, he, h'⟩

/-- **Insertion** is refused when there is an equal datum, and else takes the node in. -/
lemma insert (hc : Ordered cmp c) (h : Good c tr s t) {nd v : ℕ} (h0 : nd ≠ 0)
    (hroom : nd + 4 ≤ addrSpace) (hsep : Sep tr (nd :: s.nodes)) :
    ((∃ x ∈ s.data, c x v = 0) ∧
      avlInsertNode cmp s.mem tr nd v = some (writeNode s.mem nd 3 0 0 v, 1)) ∨
    (∀ x ∈ s.data, c x v ≠ 0) ∧ ∃ m' t', avlInsertNode cmp s.mem tr nd v = some (m', 0) ∧
      Good c tr ⟨m', nd :: s.nodes, v :: s.data⟩ t' := by
  have hsep' := h.sep hsep
  have hcmp : ∀ e ∈ t.toList, cmp (writeNode s.mem nd 3 0 0 v) e.1 nd = c e.2 v := by
    intro e he
    rw [hc.reads, (data_of_mem (h.holds.writeNode hsep' 3 0 0 v).zip.tree he).2]
    simp [AvlCode.data, writeNode_apply]
  rcases avlInsertNode_spec h.holds h0 hsep' hcmp (h.sorted.falling hc v) h.fuel_lt with
    ⟨he, h1⟩ | ⟨m', t', L₁, L₂, h1, h2, h3, h4, h5, h6, -⟩
  · exact .inl ⟨h.exists_data.mp he, h1⟩
  · have hL : ∀ e ∈ t.toList, c e.2 v ≠ 0 := by
      intro e he
      rw [h3, List.mem_append] at he
      rcases he with he | he
      · rw [h5 e he]; omega
      · rw [h6 e he]; omega
    refine .inr ⟨fun x hx hx0 => ?_, m', t', h1, h2, ?_, ?_, ?_, ?_⟩
    · obtain ⟨e, he, h'⟩ := (h.exists_data (P := fun x => c x v = 0)).mpr ⟨x, hx, hx0⟩
      exact hL e he h'
    · have hp := (addrs_perm t).symm.trans h.nodes
      rw [h3, List.map_append] at hp
      refine (addrs_perm t').trans ?_
      rw [h4, List.map_append, List.map_cons]
      exact List.perm_middle.trans (hp.cons nd)
    · have hp := h.data
      rw [h3, List.map_append] at hp
      rw [h4, List.map_append, List.map_cons]
      exact List.perm_middle.trans (hp.cons v)
    · -- the new datum is between those before and those after it
      have hs := h.sorted
      rw [h3] at hs
      simp only [Sorted, List.map_append, List.pairwise_append, List.pairwise_map,
        List.mem_map] at hs
      obtain ⟨hs1, hs2, hs3⟩ := hs
      simp only [h4, Sorted, List.map_append, List.map_cons, List.pairwise_append,
        List.pairwise_cons, List.pairwise_map, List.mem_cons, List.mem_map]
      refine ⟨hs1, ⟨?_, hs2⟩, ?_⟩
      · rintro _ ⟨e, he, rfl⟩
        have := h6 e he
        have := hc.swap e.2 v
        omega
      · rintro _ ⟨e, he, rfl⟩ x (rfl | hx)
        · exact h5 e he
        · exact hs3 _ ⟨e, he, rfl⟩ x hx
    · intro p hp
      rcases List.mem_cons.mp hp with rfl | hp
      · exact hroom
      · exact h.room p hp

/-- **Deletion** of a node of the tree hands one of its nodes back and drops the datum. -/
lemma delete (h : Good c tr s t) {p : ℕ} (hp : p ∈ s.nodes) :
    ∃ m' q t', avlDeleteNode s.mem tr p = some (m', q) ∧ q ∈ s.nodes ∧ q ∉ addrs t' ∧
      Good c tr ⟨m', s.nodes.erase q, s.data.erase (AvlCode.data s.mem p)⟩ t' := by
  obtain ⟨e, he, rfl⟩ :=
    List.mem_map.mp ((addrs_perm t).subset (h.nodes.symm.subset hp))
  obtain ⟨π, b, l, r, ht⟩ := Path.exists_fill he
  obtain ⟨m', q, t', h1, h2, h3, -⟩ := avlDeleteNode_spec h.holds ht h.fuel_lt
  have hfst := h3.fst
  have hnodes : (q :: addrs t').Perm s.nodes :=
    ((addrs_perm t').cons q).trans (hfst.symm.trans ((addrs_perm t).symm.trans h.nodes))
  obtain ⟨hq, hnodes'⟩ := List.cons_perm_iff_perm_erase.mp hnodes
  obtain ⟨v, hv, hsnd⟩ := h3.snd
  have hdata := (data_of_mem h.holds.zip.tree hv).2
  have hpw : (q :: addrs t').Pairwise Apart :=
    (hnodes.trans h.nodes.symm).pairwise_iff Apart.symm |>.mpr (by simpa using h.holds.zip.sep.1)
  refine ⟨m', q, t', h1, hq, fun hq' => ?_, h2, hnodes', ?_, h.sorted.sublist h3.sublist,
    fun x hx => h.room x (List.mem_of_mem_erase hx)⟩
  · rcases (List.pairwise_cons.mp hpw).1 q hq' with h | h <;> omega
  · rw [hdata]
    exact (List.cons_perm_iff_perm_erase.mp (hsnd.symm.trans h.data)).2

/-- A change outside the tree. -/
lemma other (h : Good c tr s t) {m' : Mem}
    (hm : ∀ a, a = tr ∨ Within a s.nodes → m' a = s.mem a) :
    Good c tr ⟨m', s.nodes, s.data⟩ t :=
  ⟨h.holds.congr (hm tr (.inl rfl)) fun a ha => hm a (.inr (ha.mono h.nodes.subset)),
    h.nodes, h.data, h.sorted, h.room⟩

end Good

/-- Memory holds the right tree in every state of every run. -/
lemma good_invariant (hc : Ordered cmp c) (tr : ℕ) :
    (treeSystem cmp tr).Invariant fun s => ∃ t, Good c tr s t := by
  constructor
  · rintro ⟨m, _, _⟩ ⟨h1, rfl, rfl⟩
    exact ⟨.nil, ⟨⟨trivial, h1, sep_nil tr⟩, trivial⟩, .refl _, .refl _, .nil, by simp⟩
  · rintro s s' ⟨t, h⟩ hs
    cases hs with
    | @insert nd v m' h0 hroom hsep hs =>
      rcases h.insert (v := v) hc h0 hroom hsep with ⟨-, h1⟩ | ⟨-, m'', t', h1, h2⟩
      · simp [h1] at hs
      · obtain rfl : m'' = m' := by simpa [h1] using hs
        exact ⟨t', h2⟩
    | @refuse nd v m' h0 hroom hsep hs =>
      rcases h.insert (v := v) hc h0 hroom hsep with ⟨-, h1⟩ | ⟨-, m'', t', h1, h2⟩
      · obtain rfl : writeNode s.mem nd 3 0 0 v = m' := by simpa [h1] using hs
        exact ⟨t, h.holds.writeNode (h.sep hsep) .., h.nodes, h.data, h.sorted, h.room⟩
      · simp [h1] at hs
    | @delete p q m' hp hs =>
      obtain ⟨m'', q', t', h1, -, -, h2⟩ := h.delete hp
      obtain ⟨rfl, rfl⟩ : m'' = m' ∧ q' = q := by simpa [h1] using hs
      exact ⟨t', h2⟩
    | other hm => exact ⟨t, h.other hm⟩

/-! ### The order of `avl_basic_cmp` -/

/-- How `avl_basic_cmp` compares data. -/
def basicOrder (x y : ℕ) : ℤ := if x < y then 1 else if x = y then 0 else -1

lemma ordered_basic : Ordered avlBasicCmp basicOrder := by
  unfold basicOrder
  constructor
  · intros; rfl
  · intro x y
    unfold IsBal
    split_ifs <;> simp
  · intro x y
    split_ifs <;> omega
  · intro x y z h1 h2
    split_ifs at h1 h2 ⊢ <;> omega
  · intro x y z h
    split_ifs at h ⊢ <;> omega

/-- **The generic trees**: in every state of every run the memory holds a balanced tree with
just the data inserted and not deleted, in increasing order; an insertion is refused, and
changes nothing but the node handed in, just when there is an equal datum; a deletion hands
back a node that is no longer linked; and a search ends at a node with an equal datum just
when there is one. -/
theorem tree_correct (hc : Ordered cmp c) {s : St} (hr : (treeSystem cmp tr).Reachable s) :
    ∃ t, Good c tr s t ∧
      (∀ nd v, nd ≠ 0 → nd + 4 ≤ addrSpace → Sep tr (nd :: s.nodes) →
        ((∃ x ∈ s.data, c x v = 0) ∧ ∃ m', avlInsertNode cmp s.mem tr nd v = some (m', 1) ∧
          Good c tr ⟨m', s.nodes, s.data⟩ t ∧ ∀ a, ¬ Within a [nd] → m' a = s.mem a) ∨
        (∀ x ∈ s.data, c x v ≠ 0) ∧ ∃ m' t', avlInsertNode cmp s.mem tr nd v = some (m', 0) ∧
          Good c tr ⟨m', nd :: s.nodes, v :: s.data⟩ t') ∧
      (∀ p ∈ s.nodes, ∃ m' q t', avlDeleteNode s.mem tr p = some (m', q) ∧ q ∈ s.nodes ∧
        q ∉ addrs t' ∧ Good c tr ⟨m', s.nodes.erase q, s.data.erase (data s.mem p)⟩ t') ∧
      ∀ loc x, Sep tr (loc :: s.nodes) → ∃ r, avlFind cmp s.mem loc tr x = some r ∧
        (r ≠ 0 ↔ ∃ y ∈ s.data, c y x = 0) ∧
        (r ≠ 0 → r ∈ s.nodes ∧ c (data s.mem r) x = 0) := by
  obtain ⟨t, h⟩ := (good_invariant hc tr).reachable hr
  refine ⟨t, h, fun nd v h0 hroom hsep => ?_, fun p hp => h.delete hp, fun loc x hsep => ?_⟩
  · refine (h.insert hc h0 hroom hsep).imp_left ?_
    rintro ⟨h1, h2⟩
    exact ⟨h1, _, h2, ⟨h.holds.writeNode (h.sep hsep) .., h.nodes, h.data, h.sorted, h.room⟩,
      fun a ha => writeNode_out s.mem _ _ _ _ ha⟩
  · obtain ⟨r, h1, h2⟩ := avlFind_spec (x := x) hc h.holds h.sorted (h.sep hsep) h.fuel_lt
    refine ⟨r, h1, ?_⟩
    rcases h2 with ⟨rfl, h2⟩ | ⟨e, he, rfl, h2⟩
    · refine ⟨⟨fun h => absurd rfl h, fun hx => ?_⟩, fun h => absurd rfl h⟩
      obtain ⟨e, he, hx⟩ := h.exists_data.mpr hx
      exact absurd hx (h2 e he)
    · obtain ⟨h3, h4⟩ := data_of_mem h.holds.zip.tree he
      refine ⟨⟨fun _ => h.exists_data.mp ⟨e, he, h2⟩, fun _ => h3⟩, fun _ => ⟨?_, by rwa [h4]⟩⟩
      exact h.nodes.subset ((addrs_perm t).symm.subset (List.mem_map_of_mem he))

/-- The memory after an insertion in the tree at the word 1, and after a deletion -/
def inserted (m : Mem) (nd v : ℕ) : Mem := ((avlInsertNode avlBasicCmp m 1 nd v).getD (m, 1)).1

def deleted (m : Mem) (p : ℕ) : Mem := ((avlDeleteNode m 1 p).getD (m, 0)).1

lemma insert_eq {m : Mem} {nd v : ℕ}
    (h : (avlInsertNode avlBasicCmp m 1 nd v).map Prod.snd = some 0) :
    avlInsertNode avlBasicCmp m 1 nd v = some (inserted m nd v, 0) := by
  obtain ⟨⟨m', r⟩, h', rfl⟩ := Option.map_eq_some_iff.1 h
  rw [inserted, h']
  rfl

lemma delete_eq {m : Mem} {p q : ℕ} (h : (avlDeleteNode m 1 p).map Prod.snd = some q) :
    avlDeleteNode m 1 p = some (deleted m p, q) := by
  obtain ⟨⟨m', r⟩, h', rfl⟩ := Option.map_eq_some_iff.1 h
  rw [deleted, h']
  rfl

/-- Three nodes, inserted in the order of their data -/
def threeNodes : Mem := inserted (inserted (inserted (fun _ => 0) 8 5) 12 6) 16 7

/-- The third insertion rotates the tree to the left. The root is deleted then: it receives the data
of the node at 16, which is handed back. -/
theorem tree_correct_rotated : threeNodes.ptr 1 = 12 ∧ (deleted threeNodes 12).ptr 1 = 12 ∧
    ∃ t, Good basicOrder 1 ⟨deleted threeNodes 12, [12, 8], [7, 5]⟩ t := by
  have hsep (L : List ℕ) (hL : L.Pairwise Apart) (h1 : ∀ p ∈ L, 1 < p) : Sep 1 L :=
    ⟨hL, fun ⟨p, hp, hle, _⟩ => absurd (h1 p hp) (by omega)⟩
  have h₀ : (treeSystem avlBasicCmp 1).Reachable ⟨fun _ => 0, [], []⟩ := .init ⟨rfl, rfl, rfl⟩
  have h₁ : (treeSystem avlBasicCmp 1).Reachable ⟨inserted (fun _ => 0) 8 5, [8], [5]⟩ :=
    h₀.step (.insert (by decide) (by decide) (hsep _ (by simp) (by simp))
      (insert_eq (by decide +kernel)))
  have h₂ : (treeSystem avlBasicCmp 1).Reachable
      ⟨inserted (inserted (fun _ => 0) 8 5) 12 6, [12, 8], [6, 5]⟩ :=
    h₁.step (.insert (by decide) (by decide) (hsep _ (by simp [Apart]) (by simp))
      (insert_eq (by decide +kernel)))
  have h₃ : (treeSystem avlBasicCmp 1).Reachable ⟨threeNodes, [16, 12, 8], [7, 6, 5]⟩ :=
    h₂.step (.insert (by decide) (by decide) (hsep _ (by simp [Apart]) (by simp))
      (insert_eq (by decide +kernel)))
  have h₄ : (treeSystem avlBasicCmp 1).Reachable ⟨deleted threeNodes 12, [12, 8], [7, 5]⟩ :=
    h₃.step (.delete (p := 12) (q := 16) (by decide) (delete_eq (by decide +kernel)))
  obtain ⟨t, h, -⟩ := tree_correct ordered_basic h₄
  exact ⟨by decide +kernel, by decide +kernel, t, h⟩

end LispMachine.AvlTree
