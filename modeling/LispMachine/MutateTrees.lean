import LispMachine.AvlTree
import LispMachine.MutateRuns

/-!
The trees of the sets, as the AVL code makes them.

The operations of a program take the tree of a set after `set_add` and `set_remove` as given; the
one that `avl_insert` or `_avl_delete` leaves in memory is such a tree.
-/

namespace LispMachine.MutateTrees

open LispMachine.Memory LispMachine.Collect LispMachine.CollectMark LispMachine.CollectSweep
open LispMachine.Mutate LispMachine.MutateRuns LispMachine.Lib.BalTree LispMachine.Lib.BalTree.BTree
open LispMachine.AvlCode LispMachine.AvlRepr LispMachine.AvlInsert LispMachine.AvlDelete
open LispMachine.Object (Types)
open LispMachine.Store (Obj)

/-- The data of the nodes -/
def dataTree : T → BTree ℕ
  | .nil => .nil
  | .node b l e r => .node b (dataTree l) e.2 (dataTree r)

lemma preorder_dataTree (t : T) : (preorder (dataTree t)).Perm (t.toList.map Prod.snd) := by
  induction t with
  | nil => exact .refl _
  | node b l e r hl hr =>
    rw [toList, List.map_append, List.map_cons, dataTree, preorder]
    exact ((hl.append hr).cons e.2).trans List.perm_middle.symm

variable (ty : Types)

/-- The tree of the set is `t`, which memory holds; its nodes are no roots of other sets. -/
structure TreeOf (s : St) (m : Mem) (tr set : ℕ) (t : T) : Prop where
  holds : Holds m tr t
  object : ∃ o, s.objs set = some o ∧ o.type = ty.setType ∧ o.contents 0 = 8 * root t
  tree : s.treeAt (8 * root t) = some (dataTree t)
  apart : ∀ p ∈ addrs t, ∀ a ≠ set, ¬ IsRoot ty s a (8 * p)

variable {ty} {L : Finset ℕ} {ext : ℕ → ℕ} {s s' : St} {m m' : Mem} {tr set x data nd : ℕ}
  {t t' : T} {o : Obj}

lemma eq_nil_of_root (h : Holds m tr t) (h0 : root t = 0) : t = .nil :=
  height_eq_zero.mp (by rw [height_eq_zero_of_root h.zip.tree h0, height_nil])

lemma root_apart (h : ∀ p ∈ addrs t, ∀ a ≠ set, ¬ IsRoot ty s a (8 * p)) (a : ℕ) (ha : a ≠ set) :
    ¬ IsRoot ty s a (8 * root t) := fun hr =>
  h _ (root_mem_addrs fun h0 => hr.1 (by rw [h0, Nat.mul_zero])) a ha hr

lemma setTree_eq {u : BTree ℕ} (ho : s.objs set = some o) : setTree s set x u = some
    { s with
      toSt := s.toSt.put set (o.setWord 0 x)
      trees := Function.update (Function.update s.trees (o.contents 0) none) x
        (if x = 0 then none else some u) } := by
  rw [setTree, ho, Option.map_some]

lemma setAdd_none (set : ℕ) (h0 : data ≠ 0) (h : hold s data = some s') :
    setAdd s set data none = some s' := by
  rw [setAdd, if_pos h0, h, Option.bind_some]

lemma setAdd_some {u : BTree ℕ} (h0 : data ≠ 0) (h : hold s data = some s') :
    setAdd s set data (some (x, u)) = setTree s' set x u := by
  rw [setAdd, if_pos h0, h, Option.bind_some]

/-- The other sets keep their roots. -/
lemma isRoot_setTree {u : BTree ℕ} (hg : Good ty L ext s) (ho : s.objs set = some o)
    (htype : o.type = ty.setType) (h : setTree s set x u = some s') {a y : ℕ} (ha : a ≠ set)
    (hr : IsRoot ty s' a y) : IsRoot ty s a y := by
  have hp : (o.type, .tree) ∈ kinds ty := by simp [kinds, htype]
  have hne := hg.type_ne ho fun h => absurd (hg.kind_string hp h) (by decide)
  rw [setTree, ho, Option.map_some, Option.some.injEq] at h
  have hother (b : ℕ) (hb : b ≠ set) : s'.objs b = s.objs b := h ▸ Function.update_of_ne hb ..
  obtain ⟨hy, o', ho', hk, hc⟩ := hr
  rw [hother a ha] at ho'
  obtain ⟨p, hp', heq⟩ := hg.typed.typed a o' ho'
  refine ⟨hy, o', ho', ?_, hc⟩
  rw [← hk]
  refine (kindOf_congr rfl ?_ fun q hq => ?_).symm
  · rw [heq, hother _ (hne p hp')]
  · rw [hother _ (hne q hq)]

namespace TreeOf

/-- The set gets a tree that memory holds. -/
lemma exchange (h : TreeOf ty s m tr set t) (hg : Good ty L ext s) (hh : Holds m' tr t')
    (hap : ∀ p ∈ addrs t', ∀ a ≠ set, ¬ IsRoot ty s a (8 * p)) :
    ∃ s', setTree s set (8 * root t') (dataTree t') = some s' ∧ TreeOf ty s' m' tr set t' := by
  obtain ⟨o, ho, htype, -⟩ := h.object
  have hset := setTree_eq (x := 8 * root t') (u := dataTree t') ho
  refine ⟨_, hset, hh, ⟨o.setWord 0 (8 * root t'), Function.update_self .., htype, ?_⟩, ?_,
    fun p hp a ha hr => hap p hp a ha (isRoot_setTree hg ho htype hset ha hr)⟩
  · simp [Obj.setWord]
  · unfold St.treeAt
    split_ifs with h0
    · rw [eq_nil_of_root hh (by omega)]
      rfl
    · simp

/-- Only counts change. -/
lemma same (h : TreeOf ty s m tr set t) (hs : Same s s') : TreeOf ty s' m tr set t := by
  obtain ⟨o, ho, htype, hc⟩ := h.object
  obtain ⟨o', ho', heq⟩ := hs.get ho
  obtain ⟨htype', -, hc'⟩ := uncounted_iff.1 heq
  exact ⟨h.holds, ⟨o', ho', htype'.trans htype, (congrFun hc' 0).trans hc⟩,
    (treeAt_congr fun _ => congrFun hs.trees _).trans h.tree,
    fun p hp a ha hr => h.apart p hp a ha ((isRoot_congr hs.objs).1 hr)⟩

end TreeOf

variable {setDelete : Store.St → ℕ → Option Store.St} {rt : List ℕ → ℕ} {cmp : Cmp}
  {c : Entry → ℤ} {p : ℕ}

/-- **`set_add`** with the tree of `avl_insert` is a step of a program. -/
theorem insert_next (hg : Good ty L ext s) (h : TreeOf ty s m tr set t) (h0 : nd ≠ 0)
    (hnd : ∀ a ≠ set, ¬ IsRoot ty s a (8 * nd)) (hsep : Sep tr (nd :: addrs t))
    (hcmp : ∀ e ∈ t.toList, cmp (writeNode m nd 3 0 0 data) e.1 nd = c e)
    (hs : Falling c t.toList) (hn : t.height + 1 < fuel) (hdata : Plain ty s data)
    (hroom : MutateRuns.Room s [data]) :
    ((∃ e ∈ t.toList, c e = 0) ∧ ∃ m' s', avlInsertNode cmp m tr nd data = some (m', 1) ∧
      setAdd s set data none = some s' ∧
      Next ty setDelete rt ⟨s, ext⟩ ⟨s', take ext data⟩ ∧ TreeOf ty s' m' tr set t) ∨
    (∀ e ∈ t.toList, c e ≠ 0) ∧ ∃ m' t' s', avlInsertNode cmp m tr nd data = some (m', 0) ∧
      setAdd s set data (some (8 * root t', dataTree t')) = some s' ∧
      Next ty setDelete rt ⟨s, ext⟩ ⟨s', ext⟩ ∧ TreeOf ty s' m' tr set t' := by
  obtain ⟨d, hd, -⟩ := id hdata
  have hhold := hold_eq hd hroom
  have hsame := same_put (w := d.refcount + 1) hd
  have hg₁ := hg.hold hdata hroom hhold
  have hd0 := (hg.mem hd).2.2
  obtain ⟨o, ho, htype, hc⟩ := h.object
  rcases avlInsertNode_spec h.holds h0 hsep hcmp hs hn with
    ⟨he, hins⟩ | ⟨m', t', L₁, L₂, hins, hh, hL, hL', h₁, h₂, -⟩
  · -- the datum is held all the same
    have hnone := setAdd_none set hd0 hhold
    refine .inl ⟨he, _, _, hins, hnone, .found hdata hroom hnone, ?_⟩
    have hw := h.same hsame
    exact ⟨h.holds.writeNode hsep 3 0 0 data, hw.object, hw.tree, hw.apart⟩
  · have hmem {q : ℕ} (hq : q ∈ addrs t') : q = nd ∨ q ∈ addrs t := by
      have := (addrs_perm t').subset hq
      rw [hL', List.map_append, List.map_cons, List.mem_append, List.mem_cons] at this
      rw [(addrs_perm t).mem_iff, hL, List.map_append, List.mem_append]
      tauto
    have hap (q : ℕ) (hq : q ∈ addrs t') (a : ℕ) (ha : a ≠ set) : ¬ IsRoot ty s a (8 * q) := by
      rcases hmem hq with rfl | hq
      · exact hnd a ha
      · exact h.apart q hq a ha
    obtain ⟨s', hset, h'⟩ := (h.same hsame).exchange hg₁ hh fun q hq a ha hr =>
      hap q hq a ha ((isRoot_congr hsame.objs).1 hr)
    have hsome := (setAdd_some hd0 hhold).trans hset
    have hperm : (preorder (dataTree t')).Perm (data :: preorder (dataTree t)) := by
      have ht := preorder_dataTree t
      have ht' := preorder_dataTree t'
      rw [hL, List.map_append] at ht
      rw [hL', List.map_append, List.map_cons] at ht'
      exact ht'.trans (List.perm_middle.trans (ht.symm.cons data))
    have hx0 : 8 * root t' ≠ 0 := fun h0 => by
      rw [eq_nil_of_root hh (by omega)] at hL'
      simp at hL'
    refine .inr ⟨fun e he => ?_, m', t', s', hins, hsome,
      .add ho htype (hc ▸ h.tree) hperm hx0 (root_apart hap) hdata hroom hsome, h'⟩
    rw [hL, List.mem_append] at he
    rcases he with he | he
    · rw [h₁ e he]
      decide
    · rw [h₂ e he]
      decide

/-- **`set_remove`** with the tree of `_avl_delete` is a step of a program. -/
theorem remove_next (hg : Good ty L ext s) (h : TreeOf ty s m tr set t) (hp : p ∈ addrs t)
    (h0 : ∀ e ∈ t.toList, e.2 ≠ 0) (hn : t.height + 1 < fuel) :
    ∃ m' q t' s', avlDeleteNode m tr p = some (m', q) ∧
      setTree s set (8 * root t') (dataTree t') = some s' ∧
      Next ty setDelete rt ⟨s, ext⟩ ⟨s', take ext (AvlCode.data m p)⟩ ∧
      TreeOf ty s' m' tr set t' := by
  obtain ⟨o, ho, htype, hc⟩ := h.object
  obtain ⟨⟨q, v⟩, he, rfl⟩ := List.mem_map.mp ((addrs_perm t).subset hp)
  obtain ⟨π, b, l, r, ht⟩ := Path.exists_fill he
  obtain ⟨m', q', t', hdel, hh, htaken, -⟩ := avlDeleteNode_spec h.holds ht hn
  obtain ⟨w, hw, hperm⟩ := htaken.snd
  have hsub {x : ℕ} (hx : x ∈ addrs t') : x ∈ addrs t :=
    (addrs_perm t).symm.subset (htaken.fst.symm.subset
      (List.mem_cons_of_mem _ ((addrs_perm t').subset hx)))
  have hap (x : ℕ) (hx : x ∈ addrs t') := h.apart x (hsub hx)
  obtain ⟨s', hset, h'⟩ := h.exchange hg hh hap
  have hdata : AvlCode.data m q = w := (AvlTree.data_of_mem h.holds.zip.tree hw).2
  refine ⟨m', q', t', s', hdel, hset, .remove ho htype (hc ▸ h.tree) ?_ (fun hx0 => ?_)
    (root_apart hap) ?_ hset, h'⟩
  · rw [hdata]
    exact (preorder_dataTree t).trans (hperm.trans ((preorder_dataTree t').symm.cons w))
  · rw [eq_nil_of_root hh (by omega)]
    rfl
  · rw [hdata]
    exact h0 _ hw

end LispMachine.MutateTrees
