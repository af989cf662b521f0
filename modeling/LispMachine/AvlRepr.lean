import LispMachine.AvlCode

/-!
When memory holds a tree.

The in-order values of the tree are the pairs of a node's address and its data. A tree is held
piecewise: the subtree at the place where an operation works, and the path from there to the
root. Nodes are four words and do not overlap, so an update of one of them leaves the others
as they are.
-/

namespace LispMachine.AvlRepr

open LispMachine.Memory LispMachine.AvlCode LispMachine.Lib.BalTree
open LispMachine.Lib.BalTree.BTree

/-- A node's address and its data. -/
abbrev Entry := ℕ × ℕ

abbrev T := BTree Entry
abbrev P := Path Entry

/-- The address of the root node, null for the empty tree. -/
def root : T → ℕ
  | .nil => 0
  | .node _ _ e _ => e.1

@[simp] lemma root_nil : root .nil = 0 := rfl
@[simp] lemma root_dnode (d : Dir) (b : ℤ) (c : T) (e : Entry) (s : T) :
    root (dnode d b c e s) = e.1 := by cases d <;> rfl

/-- The two words hold four words each and do not overlap. -/
def Apart (p q : ℕ) : Prop := p + 4 ≤ q ∨ q + 4 ≤ p

lemma Apart.symm {p q : ℕ} (h : Apart p q) : Apart q p := Or.symm h

/-- The memory `m` holds the tree, and its root's parent is `par`. -/
def Repr (m : Mem) : T → ℕ → Prop
  | .nil, _ => True
  | .node b l (p, v) r, par => p ≠ 0 ∧ m p = 8 * par + revBalanceFactor b ∧
      m (p + 1) = 8 * root l ∧ m (p + 2) = 8 * root r ∧ m (p + 3) = v ∧
      Repr m l p ∧ Repr m r p

/-- The node at the near end of a path. -/
def parent : P → ℕ
  | [] => 0
  | s :: _ => s.val.1

/-- The memory holds the nodes of a path; the hole holds `c`, and `tr` points to the root. -/
def PathRepr (m : Mem) (tr : ℕ) : P → ℕ → Prop
  | [], c => m tr = 8 * c
  | ⟨d, b, (p, v), s⟩ :: π, c => p ≠ 0 ∧ m p = 8 * parent π + revBalanceFactor b ∧
      m (p + off d) = 8 * c ∧ m (p + off d.flip) = 8 * root s ∧ m (p + 3) = v ∧
      Repr m s p ∧ PathRepr m tr π p

@[simp] lemma parent_nil : parent [] = 0 := rfl
@[simp] lemma parent_cons (s : Step Entry) (π : P) : parent (s :: π) = s.val.1 := rfl
@[simp] lemma repr_nil (m : Mem) (par : ℕ) : Repr m .nil par := trivial

@[simp] lemma off_L : off .L = 1 := rfl
@[simp] lemma off_R : off .R = 2 := rfl

lemma off_lt (d : Dir) : off d = 1 ∧ off d.flip = 2 ∨ off d = 2 ∧ off d.flip = 1 := by
  cases d <;> simp

lemma repr_dnode {m : Mem} {d : Dir} {b : ℤ} {c s : T} {p v par : ℕ} :
    Repr m (dnode d b c (p, v) s) par ↔ p ≠ 0 ∧ m p = 8 * par + revBalanceFactor b ∧
      m (p + off d) = 8 * root c ∧ m (p + off d.flip) = 8 * root s ∧ m (p + 3) = v ∧
      Repr m c p ∧ Repr m s p := by
  cases d <;> (simp [dnode, Repr]; try tauto)

lemma revBalanceFactor_lt (b : ℤ) : revBalanceFactor b < 4 := by
  unfold revBalanceFactor; split_ifs <;> omega

/-- The addresses of the nodes of a tree. -/
def addrs : T → List ℕ
  | .nil => []
  | .node _ l e r => e.1 :: (addrs l ++ addrs r)

/-- The addresses of the nodes on a path and beside it. -/
def pathAddrs : P → List ℕ
  | [] => []
  | s :: π => s.val.1 :: (addrs s.sib ++ pathAddrs π)

@[simp] lemma addrs_nil : addrs .nil = [] := rfl
@[simp] lemma pathAddrs_nil : pathAddrs [] = [] := rfl
@[simp] lemma pathAddrs_cons (s : Step Entry) (π : P) :
    pathAddrs (s :: π) = s.val.1 :: (addrs s.sib ++ pathAddrs π) := rfl

lemma addrs_dnode_perm (d : Dir) (b : ℤ) (c : T) (e : Entry) (s : T) :
    (addrs (dnode d b c e s)).Perm (e.1 :: (addrs c ++ addrs s)) := by
  cases d
  · exact .refl _
  · exact (List.perm_append_comm).cons _

@[simp] lemma mem_addrs_dnode {d : Dir} {b : ℤ} {c s : T} {e : Entry} {x : ℕ} :
    x ∈ addrs (dnode d b c e s) ↔ x = e.1 ∨ x ∈ addrs c ∨ x ∈ addrs s := by
  simp [(addrs_dnode_perm d b c e s).mem_iff]

lemma addrs_perm (t : T) : (addrs t).Perm (t.toList.map Prod.fst) := by
  induction t with
  | nil => exact .refl _
  | node b l e r ihl ihr =>
    simp only [addrs, toList, List.map_append, List.map_cons]
    exact ((ihl.append ihr).cons _).trans List.perm_middle.symm

lemma root_mem_addrs {t : T} (h : root t ≠ 0) : root t ∈ addrs t := by
  cases t with
  | nil => exact absurd rfl h
  | node b l e r => simp [addrs, root]

/-- The cell `a` lies in one of the nodes. -/
def Within (a : ℕ) (L : List ℕ) : Prop := ∃ p ∈ L, p ≤ a ∧ a < p + 4

lemma Within.mono {a : ℕ} {L L' : List ℕ} (h : Within a L) (hs : L ⊆ L') : Within a L' := by
  obtain ⟨p, hp, h⟩ := h
  exact ⟨p, hs hp, h⟩

/-- No two nodes overlap, and `tr` lies in none of them. -/
def Sep (tr : ℕ) (L : List ℕ) : Prop := L.Pairwise Apart ∧ ¬ Within tr L

lemma sep_nil (tr : ℕ) : Sep tr [] :=
  ⟨.nil, by rintro ⟨x, hx, -⟩; exact absurd hx List.not_mem_nil⟩

lemma Sep.perm {tr : ℕ} {L L' : List ℕ} (h : Sep tr L) (hp : L.Perm L') : Sep tr L' :=
  ⟨(hp.pairwise_iff Apart.symm).mp h.1, fun hw => h.2 (hw.mono hp.symm.subset)⟩

lemma Sep.sublist {tr : ℕ} {L L' : List ℕ} (h : Sep tr L) (hs : L'.Sublist L) : Sep tr L' :=
  ⟨h.1.sublist hs, fun hw => h.2 (hw.mono hs.subset)⟩

/-- Memory `m'` is `m` except within the nodes and at `tr`. -/
def Frame (tr : ℕ) (L : List ℕ) (m m' : Mem) : Prop :=
  ∀ a, a ≠ tr → ¬ Within a L → m' a = m a

lemma Frame.refl (tr : ℕ) (L : List ℕ) (m : Mem) : Frame tr L m m := fun _ _ _ => rfl

lemma Frame.trans {tr : ℕ} {L : List ℕ} {m m' m'' : Mem} (h : Frame tr L m m')
    (h' : Frame tr L m' m'') : Frame tr L m m'' :=
  fun a h1 h2 => (h' a h1 h2).trans (h a h1 h2)

lemma Frame.mono {tr : ℕ} {L L' : List ℕ} {m m' : Mem} (h : Frame tr L m m') (hs : L ⊆ L') :
    Frame tr L' m m' :=
  fun a h1 h2 => h a h1 fun hw => h2 (hw.mono hs)

/-- A tree is still held when the cells of its nodes are unchanged. -/
lemma Repr.congr {m m' : Mem} {t : T} {par : ℕ} (h : Repr m t par)
    (hf : ∀ a, Within a (addrs t) → m' a = m a) : Repr m' t par := by
  induction t generalizing par with
  | nil => trivial
  | node b l e r ihl ihr =>
    obtain ⟨p, v⟩ := e
    obtain ⟨h0, h1, h2, h3, h4, h5, h6⟩ := h
    have hc : ∀ i < 4, m' (p + i) = m (p + i) := fun i hi =>
      hf _ ⟨p, by simp [addrs], by omega, by omega⟩
    refine ⟨h0, (hc 0 (by omega)).trans h1, (hc 1 (by omega)).trans h2,
      (hc 2 (by omega)).trans h3, (hc 3 (by omega)).trans h4, ihl h5 fun a ha => hf a ?_,
      ihr h6 fun a ha => hf a ?_⟩
    · exact ha.mono fun x hx => by simp [addrs, hx]
    · exact ha.mono fun x hx => by simp [addrs, hx]

/-- A subtree given a new parent. -/
lemma Repr.reparent {m m' : Mem} {t : T} {par par' : ℕ} (h : Repr m t par)
    (hs : (addrs t).Pairwise Apart)
    (hr : root t ≠ 0 → m' (root t) = 8 * par' + revBalanceFactor t.bal)
    (hf : ∀ a, Within a (addrs t) → a ≠ root t → m' a = m a) : Repr m' t par' := by
  cases t with
  | nil => trivial
  | node b l e r =>
    obtain ⟨p, v⟩ := e
    obtain ⟨h0, h1, h2, h3, h4, h5, h6⟩ := h
    simp only [addrs, List.pairwise_cons, List.mem_append] at hs
    have hc : ∀ i < 4, i ≠ 0 → m' (p + i) = m (p + i) := fun i hi hi0 =>
      hf _ ⟨p, by simp [addrs], by omega, by omega⟩ (by simp only [root]; omega)
    have hsub : ∀ a L, (∀ x ∈ L, x ∈ addrs l ∨ x ∈ addrs r) → Within a L → m' a = m a := by
      rintro a L hL ⟨x, hx, h⟩
      have hx' := hL x hx
      refine hf a ⟨x, by simp [addrs, hx'], h⟩ ?_
      have := hs.1 x hx'
      simp only [root]
      rcases this with h' | h' <;> omega
    exact ⟨h0, hr h0, (hc 1 (by omega) (by omega)).trans h2,
      (hc 2 (by omega) (by omega)).trans h3, (hc 3 (by omega) (by omega)).trans h4,
      h5.congr fun a ha => hsub a _ (fun x hx => .inl hx) ha,
      h6.congr fun a ha => hsub a _ (fun x hx => .inr hx) ha⟩

lemma off_le (d : Dir) : off d ≤ 2 := by cases d <;> simp

lemma PathRepr.congr {m m' : Mem} {tr : ℕ} {π : P} {c : ℕ} (h : PathRepr m tr π c)
    (htr : m' tr = m tr) (hf : ∀ a, Within a (pathAddrs π) → m' a = m a) :
    PathRepr m' tr π c := by
  induction π generalizing c with
  | nil => exact htr.trans h
  | cons s π ih =>
    obtain ⟨d, b, ⟨p, v⟩, s⟩ := s
    obtain ⟨h0, h1, h2, h3, h4, h5, h6⟩ := h
    have hc : ∀ i < 4, m' (p + i) = m (p + i) := fun i hi =>
      hf _ ⟨p, by simp, by omega, by omega⟩
    have hd := off_le d
    have hd' := off_le d.flip
    refine ⟨h0, (hc 0 (by omega)).trans h1, (hc _ (by omega)).trans h2,
      (hc _ (by omega)).trans h3, (hc 3 (by omega)).trans h4, h5.congr fun a ha => hf a ?_,
      ih h6 fun a ha => hf a ?_⟩
    · exact ha.mono fun x hx => by simp [hx]
    · exact ha.mono fun x hx => by simp [hx]

/-- Memory holds a path with a tree in its hole. -/
structure Zip (m : Mem) (tr : ℕ) (π : P) (t : T) : Prop where
  tree : Repr m t (parent π)
  path : PathRepr m tr π (root t)
  sep : Sep tr (pathAddrs π ++ addrs t)

/-- All the nodes of a path with a tree in its hole. -/
abbrev nodes (π : P) (t : T) : List ℕ := pathAddrs π ++ addrs t

lemma nodes_fill_perm (s : Step Entry) (π : P) (t : T) :
    (nodes (s :: π) t).Perm (nodes π (s.fill t)) := by
  have h := List.perm_iff_count.mp (addrs_dnode_perm s.dir s.bal t s.val s.sib)
  refine List.perm_iff_count.mpr fun a => ?_
  have := h a
  simp only [nodes, Step.fill, pathAddrs_cons, List.count_append, List.count_cons] at this ⊢
  omega

lemma Frame.of_toList {tr : ℕ} {π : P} {t t' : T} {m m' : Mem} (h : Frame tr (nodes π t) m m')
    (he : t.toList = t'.toList) : Frame tr (nodes π t') m m' := by
  refine h.mono fun x hx => ?_
  simp only [nodes, List.mem_append, (addrs_perm _).mem_iff] at hx ⊢
  rwa [← he]

lemma Frame.of_fill {tr : ℕ} {s : Step Entry} {π : P} {t : T} {m m' : Mem} :
    Frame tr (nodes (s :: π) t) m m' ↔ Frame tr (nodes π (s.fill t)) m m' :=
  ⟨fun h => h.mono (nodes_fill_perm s π t).subset,
    fun h => h.mono (nodes_fill_perm s π t).symm.subset⟩

/-- Moving up one step. -/
lemma zip_cons_iff {m : Mem} {tr : ℕ} {s : Step Entry} {π : P} {t : T} :
    Zip m tr (s :: π) t ↔ Zip m tr π (s.fill t) := by
  obtain ⟨d, b, ⟨p, v⟩, s⟩ := s
  have hp := nodes_fill_perm ⟨d, b, (p, v), s⟩ π t
  constructor
  · rintro ⟨h1, ⟨g0, g1, g2, g3, g4, g5, g6⟩, h3⟩
    exact ⟨repr_dnode.mpr ⟨g0, g1, g2, g3, g4, h1, g5⟩, by simpa [Step.fill] using g6,
      h3.perm hp⟩
  · rintro ⟨h1, h2, h3⟩
    obtain ⟨g0, g1, g2, g3, g4, g5, g6⟩ := repr_dnode.mp h1
    exact ⟨g5, ⟨g0, g1, g2, g3, g4, g6, by simpa [Step.fill] using h2⟩, h3.perm hp.symm⟩

/-- Filling a path keeps its nodes. -/
lemma nodes_fill_perm' (π : P) (t : T) : (nodes π t).Perm (addrs (Path.fill π t)) := by
  induction π generalizing t with
  | nil => exact .refl _
  | cons s π ih => exact (nodes_fill_perm s π t).trans (ih _)

lemma zip_fill {m : Mem} {tr : ℕ} {π : P} {t : T} :
    Zip m tr π t ↔ Zip m tr [] (π.fill t) := by
  induction π generalizing t with
  | nil => rfl
  | cons s π ih => rw [zip_cons_iff, ih]; rfl

end LispMachine.AvlRepr
