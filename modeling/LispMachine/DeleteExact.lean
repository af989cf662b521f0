import LispMachine.CollectExact
import LispMachine.Delete
import LispMachine.Lib.Dropping
import Mathlib.Algebra.BigOperators.Group.Finset.Piecewise

/-!
`object_delete` frees what has lost its last reference, and nothing else.
-/

namespace LispMachine.DeleteExact

open LispMachine.Memory LispMachine.Collect LispMachine.CollectMark LispMachine.CollectSweep
open LispMachine.CollectExact LispMachine.Delete LispMachine.Lib.Marking LispMachine.Lib.Dropping
open LispMachine.Object (Types)
open LispMachine.Store (Obj isType objEq)

variable (ty : Types)

/-! ### Types -/

/-- Every object has one of the eight types, which differ; each array has a subarray of its own, and
what is registered is a function. -/
structure Typed (s : St) : Prop where
  differ : (kinds ty).Pairwise fun p q => objEq s.toSt p.1 q.1 = some false
  typed : ∀ a o, s.objs a = some o → ∃ p ∈ kinds ty, o.type = p.1
  storage : ∀ a o, s.objs a = some o → o.type = ty.arrayType →
    ∃ arr, s.objs (o.contents 0) = some arr ∧ arr.type = ty.subarrayType ∧ arr.refcount = 1
  functions : ∀ x ∈ s.gcSet, (s.objs (x - 8)).map Obj.type = some ty.functionType

/-- The references that an object holds, the one to its type first. -/
def allOf (s : St) (a : ℕ) : List ℕ := ((s.objs a).map Obj.type).toList ++ kidsOf ty s a

/-- All but functions are freed with their last reference. -/
def Mortal (s : St) (a : ℕ) : Prop := (s.objs a).map Obj.type ≠ some ty.functionType

variable {ty} {s s' s'' s₀ : St} {o o' : Obj} {a b v x p q n k i obj arr : ℕ}

lemma objEq_comm {s : Store.St} : objEq s p q = objEq s q p := by
  unfold objEq
  cases s.objs p with
  | none => cases s.objs q <;> rfl
  | some o =>
    cases s.objs q with
    | none => rfl
    | some o' => simp [eq_comm]

lemma objEq_self {s : Store.St} (h : s.objs p = some o) : objEq s p p = some true := by
  simp [objEq, h]

/-- The entry with the type of an object is found when the types differ. -/
lemma kindFrom_mem {α : Type} {k₀ c : α} {s : Store.St} {t : Obj} {l : List (ℕ × α)}
    (ht : s.objs o.type = some t) (hl : l.Pairwise fun p q => objEq s p.1 q.1 = some false)
    (hmem : (o.type, c) ∈ l) : kindFrom k₀ s o l = some c := by
  induction l with
  | nil => exact absurd hmem List.not_mem_nil
  | cons p l ih =>
    obtain ⟨hp, hl⟩ := List.pairwise_cons.1 hl
    rw [kindFrom, isType]
    rcases List.mem_cons.1 hmem with heq | hmem
    · rw [← heq, objEq_self ht]
      rfl
    · rw [objEq_comm, hp _ hmem]
      exact ih hl hmem

/-- The types are the same in another order. -/
lemma Typed.parts (h : Typed ty s) :
    (parts ty).Pairwise fun p q => objEq s.toSt p.1 q.1 = some false := by
  have h' := h.differ
  simp only [kinds, List.pairwise_cons, List.mem_cons, List.not_mem_nil, or_false,
    forall_eq_or_imp, forall_eq, IsEmpty.forall_iff, implies_true, and_true,
    List.Pairwise.nil] at h'
  simp only [Delete.parts, List.pairwise_cons, List.mem_cons, List.not_mem_nil, or_false,
    forall_eq_or_imp, forall_eq, IsEmpty.forall_iff, implies_true, and_true,
    List.Pairwise.nil]
  have hc (p q : ℕ) : objEq s.toSt p q = objEq s.toSt q p := objEq_comm
  simp only [h', hc ty.numType ty.stringType, hc ty.subarrayType ty.functionType,
    hc ty.arrayType ty.functionType, and_self]

/-- What is deleted with an object is what its contents refer to. -/
def Reads (ty : Types) (s : St) (o : Obj) : Part → Prop
  | .leaf => refsOf ty s o = some []
  | .tree => refsOf ty s o = (s.treeAt (o.contents 0)).map preorder ∧
      kindOf ty s.toSt o = some .tree
  | .items => refsOf ty s o = some o.words
  | .array => refsOf ty s o = some [o.contents 0] ∧ o.type = ty.arrayType
  | .function => o.type = ty.functionType
  | .other => False

lemma Typed.reads {t : Obj} (h : Typed ty s) (ho : s.objs a = some o)
    (ht : s.objs o.type = some t) : ∃ p, partOf ty s.toSt o = some p ∧ Reads ty s o p := by
  obtain ⟨⟨type, k⟩, hmem, rfl⟩ := h.typed a o ho
  have hkind : kindOf ty s.toSt o = some k := kindFrom_mem ht h.differ hmem
  have hpart {p : Part} (hp : (o.type, p) ∈ Delete.parts ty) : partOf ty s.toSt o = some p :=
    kindFrom_mem ht h.parts hp
  simp only [kinds, List.mem_cons, Prod.mk.injEq, List.not_mem_nil, or_false] at hmem
  rcases hmem with ⟨htype, rfl⟩ | ⟨htype, rfl⟩ | ⟨htype, rfl⟩ | ⟨htype, rfl⟩ | ⟨htype, rfl⟩ |
    ⟨htype, rfl⟩ | ⟨htype, rfl⟩ | ⟨htype, rfl⟩
  · exact ⟨.leaf, hpart (by simp [Delete.parts, htype]), by simp [Reads, refsOf, hkind]⟩
  · exact ⟨.leaf, hpart (by simp [Delete.parts, htype]), by simp [Reads, refsOf, hkind]⟩
  · exact ⟨.leaf, hpart (by simp [Delete.parts, htype]), by simp [Reads, refsOf, hkind]⟩
  · exact ⟨.tree, hpart (by simp [Delete.parts, htype]), by simp [Reads, refsOf, hkind]⟩
  · exact ⟨.items, hpart (by simp [Delete.parts, htype]), by simp [Reads, refsOf, hkind]⟩
  · exact ⟨.function, hpart (by simp [Delete.parts, htype]), htype⟩
  · exact ⟨.items, hpart (by simp [Delete.parts, htype]), by simp [Reads, refsOf, hkind]⟩
  · exact ⟨.array, hpart (by simp [Delete.parts, htype]), by simp [Reads, refsOf, hkind, htype]⟩

/-! ### References that are to be dropped -/

variable {L L' E E' : Finset ℕ} {own own' : ℕ → ℕ} {l l₁ l₂ D D₁ D₂ : List ℕ}

variable (ty s₀) in
/-- The objects in `L` are as they were in `s₀`, but for their counts: these are the references from
`L`, and those that `own` counts. -/
structure Sound (L : Finset ℕ) (own : ℕ → ℕ) (s : St) : Prop where
  counts : ∀ a ∈ L, ∃ o o₀, s.objs a = some o ∧ s₀.objs a = some o₀ ∧ uncounted o = uncounted o₀ ∧
    o.refcount = refs (allOf ty s₀) L a + own a ∧ o.refcount ≤ o₀.refcount
  trees : ∀ a ∈ L, ∀ x, IsRoot ty s₀ a x → s.trees x = s₀.trees x
  closed : ∀ a ∈ L, ∀ b ∈ allOf ty s₀ a, b ∈ L
  types : ∀ p ∈ kinds ty, p.1 ∈ L

variable (ty) in
/-- The references in `l` are counted by `own`, and others to each type. -/
structure Owed (L : Finset ℕ) (own : ℕ → ℕ) (l : List ℕ) : Prop where
  enough : ∀ a, l.count a ≤ own a
  mem : ∀ a ∈ l, a ∈ L
  types : ∀ p ∈ kinds ty, l.count p.1 < own p.1

variable (ty s₀) in
/-- The objects in `D` were freed when the references in `l` were dropped, and nothing changed
outside of `L` and `E`. -/
structure After (E L : Finset ℕ) (own : ℕ → ℕ) (l : List ℕ) (s : St) (D : List ℕ) (s' : St) :
    Prop where
  cascade : Cascade (allOf ty s₀) (Mortal ty s₀) L own l D
  sound : Sound ty s₀ (L \ D.toFinset) (fun a => own a - l.count a) s'
  freed : ∀ a ∈ D, s'.objs a = none
  outside : ∀ a ∉ L, a ∉ E → s'.objs a = s.objs a
  trees : ∀ x ≠ 0, (∀ a, a ∈ D ∨ a ∈ E → ¬ IsRoot ty s₀ a x) → s'.trees x = s.trees x
  next : s'.next = s.next
  gcSet : s'.gcSet = s.gcSet
  gcNumAlloced : s'.gcNumAlloced = s.gcNumAlloced

namespace Sound

lemma congr (h : Sound ty s₀ L own s) (hown : ∀ a ∈ L, own' a = own a)
    (hobjs : ∀ a ∈ L, s'.objs a = s.objs a)
    (htrees : ∀ a ∈ L, ∀ x, IsRoot ty s₀ a x → s'.trees x = s.trees x) :
    Sound ty s₀ L own' s' := by
  refine ⟨fun a ha => ?_, fun a ha x hx => (htrees a ha x hx).trans
    (h.trees a ha x hx), h.closed, h.types⟩
  rw [hobjs a ha, hown a ha]
  exact h.counts a ha

/-- Without the object, its references are counted apart. -/
lemma erase (h : Sound ty s₀ L own s) (hv : v ∈ L) (hrefs : refs (allOf ty s₀) L v = 0)
    (htype : ∀ p ∈ kinds ty, p.1 ≠ v) :
    Sound ty s₀ (L.erase v) (fun a => own a + (allOf ty s₀ v).count a) s := by
  have hsplit (a : ℕ) : refs (allOf ty s₀) L a =
      (allOf ty s₀ v).count a + refs (allOf ty s₀) (L.erase v) a := by
    rw [← refs_insert (Finset.notMem_erase v L), Finset.insert_erase hv]
  refine ⟨fun a ha => ?_, fun a ha => h.trees a (Finset.mem_of_mem_erase ha),
    fun a ha b hb => ?_, fun p hp => Finset.mem_erase.2 ⟨htype p hp, h.types p hp⟩⟩
  · obtain ⟨o, o₀, ho, ho₀, heq, hrc, hle⟩ := h.counts a (Finset.mem_of_mem_erase ha)
    exact ⟨o, o₀, ho, ho₀, heq, by rw [hrc, hsplit]; omega, hle⟩
  · have haL := Finset.mem_of_mem_erase ha
    exact Finset.mem_erase.2 ⟨fun hbv => refs_eq_zero.1 hrefs a haL (hbv ▸ hb), h.closed a haL b hb⟩

end Sound

namespace Owed

lemma left (h : Owed ty L own (l₁ ++ l₂)) : Owed ty L own l₁ := by
  have hle (a : ℕ) : l₁.count a ≤ (l₁ ++ l₂).count a := by
    rw [List.count_append]
    exact Nat.le_add_right ..
  exact ⟨fun a => (hle a).trans (h.enough a), fun a ha => h.mem a (List.mem_append_left _ ha),
    fun p hp => (hle p.1).trans_lt (h.types p hp)⟩

lemma perm (h : Owed ty L own l₁) (hl : l₁.Perm l₂) : Owed ty L own l₂ :=
  ⟨fun a => hl.count_eq a ▸ h.enough a, fun a ha => h.mem a (hl.mem_iff.2 ha),
    fun p hp => hl.count_eq p.1 ▸ h.types p hp⟩

/-- What is to be dropped later is not freed before. -/
lemma right (h : Owed ty L own (l₁ ++ l₂))
    (hc : Cascade (allOf ty s₀) (Mortal ty s₀) L own l₁ D) :
    Owed ty (L \ D.toFinset) (fun a => own a - l₁.count a) l₂ := by
  refine ⟨fun a => ?_, fun a ha => ?_, fun p hp => ?_⟩
  · have := h.enough a
    rw [List.count_append] at this
    omega
  · refine Finset.mem_sdiff.2 ⟨h.mem a (List.mem_append_right _ ha), fun haD => ?_⟩
    have h1 := hc.dropped a (List.mem_toFinset.1 haD)
    have h2 := h.enough a
    have h3 := List.count_pos_iff.2 ha
    rw [List.count_append] at h2
    omega
  · have := h.types p hp
    rw [List.count_append] at this
    omega

/-- The references of an object that goes -/
lemma erase (h : Owed ty L own [v]) (hs : Sound ty s₀ L own s)
    (hrefs : refs (allOf ty s₀) L v = 0) :
    Owed ty (L.erase v) (fun a => own a + (allOf ty s₀ v).count a) (allOf ty s₀ v) := by
  have hv := h.mem v (List.mem_singleton_self v)
  refine ⟨fun a => Nat.le_add_left _ _, fun a ha => Finset.mem_erase.2 ⟨fun hav => ?_,
    hs.closed v hv a ha⟩, fun p hp => ?_⟩
  · exact refs_eq_zero.1 hrefs v hv (hav ▸ ha)
  · have := h.types p hp
    omega

end Owed

namespace After

lemma refl (h : Sound ty s₀ L own s) : After ty s₀ E L own [] s [] s := by
  refine ⟨.nil, ?_, by simp, fun _ _ _ => rfl, fun _ _ _ => rfl, rfl, rfl, rfl⟩
  simpa using h

/-- What is in `E` changes. -/
lemma step (h : After ty s₀ E L own l s D s') (hd : Distinct ty s₀) (hE : Disjoint E L)
    (hobjs : ∀ a ∉ E, s''.objs a = s'.objs a)
    (htrees : ∀ x ≠ 0, (∀ a ∈ E, ¬ IsRoot ty s₀ a x) → s''.trees x = s'.trees x)
    (hnext : s''.next = s'.next) (hset : s''.gcSet = s'.gcSet)
    (hnum : s''.gcNumAlloced = s'.gcNumAlloced) : After ty s₀ E L own l s D s'' := by
  have hout (a : ℕ) (ha : a ∈ L) : a ∉ E := fun haE => Finset.disjoint_left.1 hE haE ha
  refine ⟨h.cascade, h.sound.congr (fun _ _ => rfl) (fun a ha => hobjs a ?_) fun a ha x hx => ?_,
    fun a ha => (hobjs a ?_).trans (h.freed a ha), fun a ha haE =>
    (hobjs a haE).trans (h.outside a ha haE), fun x h0 hx => (htrees x h0 fun a ha =>
    hx a (.inr ha)).trans (h.trees x h0 hx), hnext.trans h.next, hset.trans h.gcSet,
    hnum.trans h.gcNumAlloced⟩
  · exact hout a (Finset.mem_sdiff.1 ha).1
  · exact htrees x hx.1 fun b hb hr => hout b (hd b a x hr hx ▸ (Finset.mem_sdiff.1 ha).1) hb
  · exact hout a (h.cascade.sub a ha)

lemma mono (h : After ty s₀ E L own l s D s') (hsub : E ⊆ E') : After ty s₀ E' L own l s D s' :=
  { h with
    outside := fun a ha haE => h.outside a ha fun h => haE (hsub h)
    trees := fun x h0 hx => h.trees x h0 fun a ha => hx a (ha.imp_right fun h => hsub h) }

lemma congr (h : After ty s₀ E L own l s D s') (hl : ∀ a, l.count a = l₁.count a) :
    After ty s₀ E L own l₁ s D s' :=
  { h with
    cascade := h.cascade.congr hl
    sound := h.sound.congr (fun a _ => by rw [hl a]) (fun _ _ => rfl) fun _ _ _ _ => rfl }

lemma trans (h₁ : After ty s₀ E L own l₁ s D₁ s')
    (h₂ : After ty s₀ E (L \ D₁.toFinset) (fun a => own a - l₁.count a) l₂ s' D₂ s'')
    (howed : Owed ty L own (l₁ ++ l₂)) (hE : Disjoint E L) :
    After ty s₀ E L own (l₁ ++ l₂) s (D₁ ++ D₂) s'' := by
  have hout (a : ℕ) (ha : a ∈ L → a ∈ D₁) : a ∉ L \ D₁.toFinset := fun h =>
    (Finset.mem_sdiff.1 h).2 (List.mem_toFinset.2 (ha (Finset.mem_sdiff.1 h).1))
  have hset : L \ (D₁ ++ D₂).toFinset = (L \ D₁.toFinset) \ D₂.toFinset := by
    rw [List.toFinset_append, ← Finset.sup_eq_union, sdiff_sdiff_left]
  refine ⟨h₁.cascade.append h₂.cascade (fun _ => rfl) fun a => ?_, ?_, fun a ha => ?_,
    fun a ha haE => ?_, fun x h0 hx => ?_, h₂.next.trans h₁.next, h₂.gcSet.trans h₁.gcSet,
    h₂.gcNumAlloced.trans h₁.gcNumAlloced⟩
  · have := howed.enough a
    rwa [List.count_append] at this
  · rw [hset]
    exact h₂.sound.congr (fun a _ => by rw [List.count_append, Nat.sub_sub]) (fun _ _ => rfl)
      fun _ _ _ _ => rfl
  · rcases List.mem_append.1 ha with ha | ha
    · rw [h₂.outside a (hout a fun _ => ha) fun haE =>
        Finset.disjoint_left.1 hE haE (h₁.cascade.sub a ha)]
      exact h₁.freed a ha
    · exact h₂.freed a ha
  · exact (h₂.outside a (hout a fun h => absurd h ha) haE).trans (h₁.outside a ha haE)
  · exact (h₂.trees x h0 fun a ha => hx a (ha.imp_left (List.mem_append_right _))).trans
      (h₁.trees x h0 fun a ha => hx a (ha.imp_left (List.mem_append_left _)))

/-- The object itself goes. -/
lemma node (h : After ty s₀ (insert v E) (L.erase v)
      (fun a => own a + (allOf ty s₀ v).count a) (allOf ty s₀ v) s D s')
    (hv : v ∈ L) (hm : Mortal ty s₀ v) (hown : own v = 1) (hrefs : refs (allOf ty s₀) L v = 0)
    (hnone : s'.objs v = none) : After ty s₀ E L own [v] s (v :: D) s' := by
  have hset : L \ (v :: D).toFinset = L.erase v \ D.toFinset := by
    rw [List.toFinset_cons, Finset.sdiff_insert, Finset.erase_sdiff_comm]
  refine ⟨h.cascade.node hv hm hown hrefs fun _ _ => rfl, ?_, fun a ha => ?_, fun a ha haE => ?_,
    fun x h0 hx => ?_, h.next, h.gcSet, h.gcNumAlloced⟩
  · rw [hset]
    refine h.sound.congr (fun a ha => ?_) (fun _ _ => rfl) fun _ _ _ _ => rfl
    have hav : a ≠ v := (Finset.mem_erase.1 (Finset.mem_sdiff.1 ha).1).1
    simp [Ne.symm hav]
  · rcases List.mem_cons.1 ha with rfl | ha
    · exact hnone
    · exact h.freed a ha
  · refine h.outside a (fun h => ha (Finset.mem_of_mem_erase h)) fun h => ?_
    exact (Finset.mem_insert.1 h).elim (fun hav => ha (hav ▸ hv)) haE
  · refine h.trees x h0 fun a ha => hx a ?_
    rcases ha with ha | ha
    · exact .inl (List.mem_cons_of_mem _ ha)
    · rcases Finset.mem_insert.1 ha with rfl | haE
      · exact .inl List.mem_cons_self
      · exact .inr haE

end After

/-! ### Dropping references -/

variable {delete : St → ℕ → Option St} {root : List ℕ → ℕ}

variable (ty s₀ n) in
/-- A computation drops one reference, when there are fewer than `n` objects. -/
def Deletes (delete : St → ℕ → Option St) : Prop :=
  ∀ v L own s, Sound ty s₀ L own s → Owed ty L own ([v].filter (· ≠ 0)) → L.card < n →
    ∃ s' D, delete s v = some s' ∧ After ty s₀ ∅ L own ([v].filter (· ≠ 0)) s D s'

namespace Deletes

variable (L') in
/-- One reference is dropped before others. -/
lemma cons (hd : Deletes ty s₀ n delete) (hs : Sound ty s₀ L own s)
    (howed : Owed ty L own ((v :: l).filter (· ≠ 0))) (hn : L.card < n)
    {f : St → Option St} (hf : ∀ L own s₁, (∀ a ∉ L', s₁.objs a = s.objs a) →
      Sound ty s₀ L own s₁ → Owed ty L own (l.filter (· ≠ 0)) → L.card < n → L ⊆ L' →
      ∃ s' D, f s₁ = some s' ∧ After ty s₀ ∅ L own (l.filter (· ≠ 0)) s₁ D s') (hL : L ⊆ L') :
    ∃ s' D, (delete s v).bind f = some s' ∧
      After ty s₀ ∅ L own ((v :: l).filter (· ≠ 0)) s D s' := by
  have happ : (v :: l).filter (· ≠ 0) = [v].filter (· ≠ 0) ++ l.filter (· ≠ 0) := by
    rw [← List.filter_append, List.singleton_append]
  rw [happ] at howed ⊢
  obtain ⟨s₁, D₁, hdel, h₁⟩ := hd v L own s hs howed.left hn
  obtain ⟨s', D₂, hf', h₂⟩ := hf _ _ s₁ (fun a ha => h₁.outside a (fun h => ha (hL h))
    (Finset.notMem_empty a)) h₁.sound (howed.right h₁.cascade)
    ((Finset.card_le_card Finset.sdiff_subset).trans_lt hn) (Finset.sdiff_subset.trans hL)
  exact ⟨s', D₁ ++ D₂, by rw [hdel, Option.bind_some, hf'],
    h₁.trans h₂ howed (Finset.disjoint_empty_left L)⟩

lemma items (hd : Deletes ty s₀ n delete) (hobj : obj ∉ L') (k : ℕ) :
    ∀ i L own s, L ⊆ L' → s.objs obj = some o → Sound ty s₀ L own s →
      Owed ty L own (((List.range' i k).map o.contents).filter (· ≠ 0)) → L.card < n →
      ∃ s' D, deleteItems delete obj k i s = some s' ∧
        After ty s₀ ∅ L own (((List.range' i k).map o.contents).filter (· ≠ 0)) s D s' := by
  induction k with
  | zero => exact fun i L own s _ _ hs _ _ => ⟨s, [], rfl, .refl hs⟩
  | succ k ih =>
    intro i L own s hL ho hs howed hn
    rw [List.range'_succ, List.map_cons] at howed ⊢
    obtain ⟨s', D, hf, h⟩ := hd.cons L' hs howed hn (f := deleteItems delete obj k (i + 1))
      (fun L own s₁ hout hs₁ howed₁ hn₁ hsub => ih (i + 1) L own s₁ hsub
        ((hout obj hobj).trans ho) hs₁ howed₁ hn₁) hL
    exact ⟨s', D, by rw [deleteItems, ho, Option.bind_some, hf], h⟩

variable (root) in
lemma tree (hd : Deletes ty s₀ n delete) (k : ℕ) :
    ∀ l L own s, l.length = k → Sound ty s₀ L own s → Owed ty L own (l.filter (· ≠ 0)) →
      L.card < n → ∃ s' D, deleteTree root delete k l s = some s' ∧
        After ty s₀ ∅ L own (l.filter (· ≠ 0)) s D s' := by
  induction k with
  | zero =>
    intro l L own s hl hs _ _
    obtain rfl := List.length_eq_zero_iff.1 hl
    exact ⟨s, [], rfl, .refl hs⟩
  | succ k ih =>
    intro l L own s hl hs howed hn
    have hmem : rootOf root l ∈ l := rootOf_mem (by rintro rfl; simp at hl)
    have hperm : (l.filter (· ≠ 0)).Perm
        ((rootOf root l :: l.erase (rootOf root l)).filter (· ≠ 0)) :=
      (List.perm_cons_erase hmem).filter _
    obtain ⟨s', D, hf, h⟩ := hd.cons L hs (howed.perm hperm) hn
      (f := deleteTree root delete k (l.erase (rootOf root l)))
      (fun L own s₁ _ hs₁ howed₁ hn₁ _ => ih _ L own s₁
        (by rw [List.length_erase_of_mem hmem, hl, Nat.add_sub_cancel]) hs₁ howed₁ hn₁) subset_rfl
    exact ⟨s', D, hf, h.congr fun a => (hperm.count_eq a).symm⟩

end Deletes

/-- An object that can be read is freed. -/
lemma After.free (h : After ty s₀ E L own l s D s') (hd : Distinct ty s₀) (hE : Disjoint E L)
    (hv : v ∈ E) (ho : s'.objs v = some o) : ∃ s'', freeObj s' v = some s'' ∧
      After ty s₀ E L own l s D s'' ∧ s''.objs v = none ∧ ∀ a ≠ v, s''.objs a = s'.objs a := by
  have hfree : freeObj s' v =
      some { s' with toSt := { s'.toSt with objs := Function.update s'.objs v none } } := by
    rw [freeObj, Store.St.free, ho, Option.map_some, Option.map_some]
  refine ⟨_, hfree, h.step hd hE
    (fun a ha => Function.update_of_ne (ne_of_mem_of_not_mem hv ha).symm ..)
    (fun _ _ _ => rfl) rfl rfl rfl, Function.update_self .., fun a ha =>
    Function.update_of_ne ha ..⟩

lemma allOf_eq (ho : s.objs a = some o) (hl : refsOf ty s o = some l) :
    allOf ty s a = o.type :: l.filter (· ≠ 0) := by
  rw [allOf, kidsOf, ho, Option.bind_some, hl]
  rfl

lemma Typed.mortal {t : Obj} {c : Part} (h : Typed ty s) (ho : s.objs a = some o)
    (ht : s.objs o.type = some t) (hc : partOf ty s.toSt o = some c) (hne : c ≠ .function) :
    Mortal ty s a := by
  intro htype
  rw [ho, Option.map_some] at htype
  have hpart : partOf ty s.toSt o = some .function :=
    kindFrom_mem ht h.parts (by simp [Delete.parts, Option.some.inj htype])
  exact hne (Option.some.inj (hc.symm.trans hpart))

lemma Sound.partOf_eq {o₀ : Obj} (hs : Sound ty s₀ L own s) (htype : o₀.type ∈ L)
    (heq : uncounted o = uncounted o₀) : partOf ty s.toSt o = partOf ty s₀.toSt o₀ := by
  have hkept (a : ℕ) (ha : a ∈ L) : (s.objs a).map uncounted = (s₀.objs a).map uncounted := by
    obtain ⟨o, o₀, ho, ho₀, h, -⟩ := hs.counts a ha
    rw [ho, ho₀, Option.map_some, Option.map_some, h]
  have htypes : ∀ p ∈ Delete.parts ty, ∃ q ∈ kinds ty, q.1 = p.1 := by simp [Delete.parts, kinds]
  exact kindFrom_congr heq (hkept _ htype) fun p hp => by
    obtain ⟨q, hq, hqp⟩ := htypes p hp
    exact hkept p.1 (hqp ▸ hs.types q hq)

lemma uncounted_refcount (o : Obj) (w : ℕ) : uncounted { o with refcount := w } = uncounted o := rfl

section Contents

variable (he : Exact ty L' own' s₀) (ht : Typed ty s₀)
include he

lemma Sound.null (h : Sound ty s₀ L own s) : 0 ∉ L := fun h0 => by
  obtain ⟨o, o₀, -, ho₀, -⟩ := h.counts 0 h0
  exact he.null ((he.live 0).2 (by rw [ho₀]; exact Option.some_ne_none _))

/-- The contents are deleted, and then the reference to the type. -/
lemma Deletes.last (hd : Deletes ty s₀ n delete) (h : After ty s₀ {v} L own l s D s')
    (hnone : s'.objs v = none) (hv : v ∉ L) (howed : Owed ty L own (p :: l))
    (hs : Sound ty s₀ L own s) (hn : L.card < n) : ∃ s'' D', delete s' p = some s'' ∧
      After ty s₀ {v} L own (p :: l) s D' s'' ∧ s''.objs v = none := by
  have hp : p ∈ L := howed.mem p List.mem_cons_self
  have hp0 : p ≠ 0 := fun h0 => hs.null he (h0 ▸ hp)
  have hperm : (l ++ [p]).Perm (p :: l) := List.perm_append_singleton p l
  have howed' : Owed ty L own (l ++ [p]) := howed.perm hperm.symm
  have hfilter : [p].filter (· ≠ 0) = [p] := by simpa using hp0
  obtain ⟨s'', D', hdel, h'⟩ := hd p _ _ s' h.sound
    (by rw [hfilter]; exact howed'.right h.cascade)
    ((Finset.card_le_card Finset.sdiff_subset).trans_lt hn)
  rw [hfilter] at h'
  have hE : Disjoint {v} L := Finset.disjoint_singleton_left.2 hv
  refine ⟨s'', _, hdel, (h.trans (h'.mono (Finset.empty_subset _)) howed' hE).congr hperm.count_eq,
    ?_⟩
  exact (h'.outside v (fun h => hv (Finset.mem_sdiff.1 h).1) (Finset.notMem_empty v)).trans hnone

/-- The contents of an object are deleted, and the object is freed. -/
lemma Deletes.itemsFree (hd : Deletes ty s₀ n delete) (ho : s.objs obj = some o) (hobj : obj ∉ L)
    (hs : Sound ty s₀ L own s) (howed : Owed ty L own (o.words.filter (· ≠ 0)))
    (hn : L.card < n) : ∃ s' D, (deleteItems delete obj o.size 0 s).bind (freeObj · obj) = some s' ∧
      After ty s₀ {obj} L own (o.words.filter (· ≠ 0)) s D s' ∧ s'.objs obj = none ∧
      ∀ a ∉ L, a ≠ obj → s'.objs a = s.objs a := by
  have hwords : o.words = (List.range' 0 o.size).map o.contents := by
    rw [Obj.words, List.range_eq_range']
  rw [hwords] at howed ⊢
  obtain ⟨s₁, D, hdel, h₁⟩ := hd.items hobj o.size 0 L own s subset_rfl ho hs howed hn
  have ho₁ : s₁.objs obj = some o := (h₁.outside obj hobj (Finset.notMem_empty _)).trans ho
  have hE : Disjoint {obj} L := Finset.disjoint_singleton_left.2 hobj
  obtain ⟨s', hfree, h', hnone, hother⟩ := (h₁.mono (Finset.empty_subset {obj})).free he.distinct hE
    (Finset.mem_singleton_self obj) ho₁
  exact ⟨s', D, by rw [hdel, Option.bind_some, hfree], h', hnone, fun a ha hao =>
    (hother a hao).trans (h₁.outside a ha (Finset.notMem_empty _))⟩

variable (root) in
/-- **`set_delete`** -/
lemma Deletes.setFree {t : Lib.BalTree.BTree ℕ} (hd : Deletes ty s₀ n delete)
    (ho : s.objs obj = some o) (hobj : obj ∉ L) (ht : s.treeAt (o.contents 0) = some t)
    (hroot : o.contents 0 ≠ 0 → IsRoot ty s₀ obj (o.contents 0)) (hs : Sound ty s₀ L own s)
    (howed : Owed ty L own ((preorder t).filter (· ≠ 0))) (hn : L.card < n) :
    ∃ s' D, setDelete root delete s obj = some s' ∧
      After ty s₀ {obj} L own ((preorder t).filter (· ≠ 0)) s D s' ∧ s'.objs obj = none := by
  have hE : Disjoint {obj} L := Finset.disjoint_singleton_left.2 hobj
  have h₁ : After ty s₀ {obj} L own [] s [] (s.freeTree (o.contents 0)) := by
    refine (After.refl hs).step he.distinct hE (fun _ _ => rfl) (fun x h0 hx => ?_) rfl rfl rfl
    refine Function.update_of_ne (fun hxo => ?_) ..
    subst hxo
    exact hx obj (Finset.mem_singleton_self obj) (hroot h0)
  have hs₁ : Sound ty s₀ L own (s.freeTree (o.contents 0)) := by simpa using h₁.sound
  obtain ⟨s₂, D, hdel, h₂⟩ := hd.tree root _ _ L own _ rfl hs₁ howed hn
  have ho₂ : s₂.objs obj = some o := (h₂.outside obj hobj (Finset.notMem_empty _)).trans ho
  have h₂' : After ty s₀ {obj} (L \ [].toFinset) (fun a => own a - [].count a)
      ((preorder t).filter (· ≠ 0)) (s.freeTree (o.contents 0)) D s₂ := by
    simpa using h₂.mono (Finset.empty_subset {obj})
  have h₁₂ := h₁.trans h₂' howed hE
  obtain ⟨s', hfree, h', hnone, -⟩ := h₁₂.free he.distinct hE (Finset.mem_singleton_self obj) ho₂
  refine ⟨s', _, ?_, h', hnone⟩
  rw [setDelete, ho, Option.bind_some, ht, Option.bind_some, hdel, Option.bind_some, hfree]

include ht

/-- The subarray of an array that is deleted has one reference, which is to be dropped. -/
lemma Owed.storage {o₀ : Obj} (ho₀ : s₀.objs obj = some o₀) (htype : o₀.type = ty.arrayType)
    (hs : Sound ty s₀ L own s) (howed : Owed ty L own [o₀.contents 0]) :
    ∃ A, s.objs (o₀.contents 0) = some A ∧ A.refcount = 1 ∧ own (o₀.contents 0) = 1 ∧
      refs (allOf ty s₀) L (o₀.contents 0) = 0 ∧ (∀ p ∈ kinds ty, p.1 ≠ o₀.contents 0) ∧
      Mortal ty s₀ (o₀.contents 0) ∧
      allOf ty s₀ (o₀.contents 0) = [A.type] ++ A.words.filter (· ≠ 0) := by
  obtain ⟨A₀, hA₀, hAtype, hone⟩ := ht.storage obj o₀ ho₀ htype
  set arr := o₀.contents 0
  obtain ⟨A, A₁, hA, hA₁, heq, hrc, hle⟩ :=
    hs.counts arr (howed.mem arr (List.mem_singleton_self arr))
  obtain rfl := Option.some.inj (hA₁.symm.trans hA₀)
  have hpos := howed.enough arr
  rw [List.count_singleton_self] at hpos
  obtain ⟨T, hT⟩ := Option.ne_none_iff_exists'.1 ((he.live _).1 (he.held arr A₁ hA₀).1)
  have hpart : partOf ty s₀.toSt A₁ = some .items :=
    kindFrom_mem hT ht.parts (by simp [Delete.parts, hAtype])
  have hkind : kindOf ty s₀.toSt A₁ = some .items :=
    kindFrom_mem hT ht.differ (by simp [kinds, hAtype])
  refine ⟨A, hA, by omega, by omega, by omega, fun p hp h => ?_,
    ht.mortal hA₀ hT hpart (by decide), ?_⟩
  · have := howed.types p hp
    rw [h, List.count_singleton_self] at this
    omega
  · rw [allOf_eq hA₀ (by rw [refsOf, hkind, Option.bind_some]), (uncounted_iff.1 heq).1,
      words_congr heq]
    rfl

/-- **`obj_array_delete`**, for an array with a subarray of its own -/
lemma Deletes.arrayFree (hd : Deletes ty s₀ n delete) (ho : s.objs obj = some o)
    {o₀ : Obj} (ho₀ : s₀.objs obj = some o₀) (hcontents : o.contents 0 = o₀.contents 0)
    (htype : o₀.type = ty.arrayType) (hobj : obj ∉ L) (hs : Sound ty s₀ L own s)
    (howed : Owed ty L own [o₀.contents 0]) (hn : L.card < n) :
    ∃ s' D, objArrayDelete delete s obj = some s' ∧
      After ty s₀ {obj} L own [o₀.contents 0] s D s' ∧ s'.objs obj = none := by
  obtain ⟨A, hA, hone, hown, hrefs, htypes, hmortal, hall⟩ := howed.storage he ht ho₀ htype hs
  set arr := o₀.contents 0
  have harr : arr ∈ L := howed.mem arr (List.mem_singleton_self arr)
  have hne : arr ≠ obj := fun h => hobj (h ▸ harr)
  have hs₁ := hs.erase harr hrefs htypes
  have howed₁ := howed.erase hs hrefs
  set own₁ := fun a => own a + (allOf ty s₀ arr).count a
  rw [hall] at howed₁
  have harrL : arr ∉ L.erase arr := Finset.notMem_erase arr L
  have hobjL : obj ∉ L.erase arr := fun h => hobj (Finset.mem_of_mem_erase h)
  have hn₁ : (L.erase arr).card < n := (Finset.card_le_card (Finset.erase_subset _ _)).trans_lt hn
  set E : Finset ℕ := insert arr {obj}
  have harrE : arr ∈ E := Finset.mem_insert_self ..
  have hE : Disjoint E (L.erase arr) :=
    Finset.disjoint_insert_left.2 ⟨harrL, Finset.disjoint_singleton_left.2 hobjL⟩
  -- the reference to the type of the subarray is dropped first
  have hT0 : A.type ≠ 0 := fun h0 => hs₁.null he
    (h0 ▸ howed₁.mem A.type (List.mem_append_left _ (List.mem_singleton_self _)))
  have hfilter : [A.type].filter (· ≠ 0) = [A.type] := by simpa using hT0
  obtain ⟨s₁, D₁, hdel₁, h₁⟩ := hd A.type _ own₁ s hs₁ (by rw [hfilter]; exact howed₁.left) hn₁
  rw [hfilter] at h₁
  have ho₁ : s₁.objs obj = some o := (h₁.outside obj hobjL (Finset.notMem_empty _)).trans ho
  have hA₁ : s₁.objs arr = some A := (h₁.outside arr harrL (Finset.notMem_empty _)).trans hA
  -- the array is freed
  obtain ⟨s₂, hfree₂, h₂, hnone₂, hother₂⟩ := (h₁.mono (Finset.empty_subset E)).free he.distinct hE
    (Finset.mem_insert_of_mem (Finset.mem_singleton_self obj)) ho₁
  have hA₂ : s₂.objs arr = some A := (hother₂ arr hne).trans hA₁
  -- the subarray goes
  set s₃ : St := { s₂ with toSt := s₂.toSt.put arr { A with refcount := 0 } }
  have h₃ : After ty s₀ E (L.erase arr) own₁ [A.type] s D₁ s₃ :=
    h₂.step he.distinct hE (fun a ha => Function.update_of_ne
      (ne_of_mem_of_not_mem harrE ha).symm ..) (fun _ _ _ => rfl) rfl rfl rfl
  have hA₃ : s₃.objs arr = some { A with refcount := 0 } := Function.update_self ..
  have hnone₃ : s₃.objs obj = none := (Function.update_of_ne (Ne.symm hne) ..).trans hnone₂
  obtain ⟨s₄, D₂, hdel₄, h₄, hnone₄, hother₄⟩ := hd.itemsFree he hA₃
    (fun h => harrL (Finset.mem_sdiff.1 h).1) h₃.sound (howed₁.right h₃.cascade)
    ((Finset.card_le_card Finset.sdiff_subset).trans_lt hn₁)
  have h := h₃.trans (h₄.mono (Finset.singleton_subset_iff.2 harrE)) howed₁ hE
  have h' : After ty s₀ E (L.erase arr) own₁ (allOf ty s₀ arr) s (D₁ ++ D₂) s₄ := by
    rw [hall]
    exact h
  refine ⟨s₄, _, ?_, h'.node harr hmortal hown hrefs hnone₄,
    (hother₄ obj (fun h => hobjL (Finset.mem_sdiff.1 h).1) (Ne.symm hne)).trans hnone₃⟩
  have hrc : wsub A.refcount 1 = 0 := by rw [hone, wsub_eq (by decide) (by decide)]
  have hput : s₂.setRefcount arr 0 = some s₃ := setRefcount_eq hA₂
  rw [objArrayDelete, ho, Option.bind_some, hcontents]
  dsimp only
  rw [hA, Option.bind_some, hdel₁, Option.bind_some, hfree₂, Option.bind_some, hA₂,
    Option.bind_some, hrc, hput, Option.bind_some, if_neg (not_not_intro rfl)]
  exact hdel₄

/-- The contents of an object without references are deleted, then its type. -/
lemma Deletes.contents (root : List ℕ → ℕ) (hd : Deletes ty s₀ n delete)
    (ho : s.objs v = some o) {o₀ : Obj} (ho₀ : s₀.objs v = some o₀)
    (heq : uncounted o = uncounted o₀) (heq' : uncounted o' = uncounted o₀) (hm : Mortal ty s₀ v)
    (hv : v ∉ L) (htrees : ∀ x, IsRoot ty s₀ v x → s.trees x = s₀.trees x) (hs : Sound ty s₀ L own s)
    (howed : Owed ty L own (allOf ty s₀ v)) (hn : L.card < n) :
    ∃ s' D, deleteContents ty root delete v o' s = some s' ∧
      After ty s₀ {v} L own (allOf ty s₀ v) s D s' ∧ s'.objs v = none := by
  obtain ⟨htype', hsize', hcontents'⟩ := uncounted_iff.1 heq'
  obtain ⟨htype, hsize, hcontents⟩ := uncounted_iff.1 heq
  have hE : Disjoint {v} L := Finset.disjoint_singleton_left.2 hv
  have hvE : v ∈ ({v} : Finset ℕ) := Finset.mem_singleton_self v
  obtain ⟨T, hT⟩ := Option.ne_none_iff_exists'.1 ((he.live _).1 (he.held v o₀ ho₀).1)
  obtain ⟨c, hc, hreads⟩ := ht.reads ho₀ hT
  obtain ⟨o₁, l, ho₁, hl, -⟩ := he.heap v ((he.live v).2 (by rw [ho₀]; exact Option.some_ne_none _))
  obtain rfl := Option.some.inj (ho₁.symm.trans ho₀)
  have hall := allOf_eq ho₀ hl
  rw [hall] at howed ⊢
  have howed' : Owed ty L own (l.filter (· ≠ 0)) :=
    (howed.perm (List.perm_append_singleton o₁.type _).symm).left
  have hpart : partOf ty s.toSt o' = some c :=
    (hs.partOf_eq (howed.mem _ List.mem_cons_self) heq').trans hc
  rw [deleteContents, hpart, Option.bind_some, htype']
  cases c with
  | leaf =>
    obtain rfl : l = [] := Option.some.inj (hl.symm.trans hreads)
    obtain ⟨s₁, hfree, h₁, hnone, -⟩ := (After.refl hs).free he.distinct hE hvE ho
    obtain ⟨s', D, hdel, h⟩ := hd.last he h₁ hnone hv howed hs hn
    exact ⟨s', D, (congrArg (Option.bind · _) hfree).trans hdel, h⟩
  | tree =>
    obtain ⟨hread, hkind⟩ := hreads
    obtain ⟨t, ht, rfl⟩ := Option.map_eq_some_iff.1 (hread.symm.trans hl)
    have hroot (h0 : o.contents 0 ≠ 0) : IsRoot ty s₀ v (o.contents 0) :=
      ⟨h0, o₁, ho₀, hkind, by rw [hcontents]⟩
    have ht' : s.treeAt (o.contents 0) = some t := by
      rw [← ht, ← hcontents, St.treeAt, St.treeAt]
      split_ifs with h0
      · rfl
      · exact htrees _ (hroot h0)
    obtain ⟨s₁, D₁, hset, h₁, hnone⟩ := hd.setFree root he ho hv ht' hroot hs howed' hn
    obtain ⟨s', D, hdel, h⟩ := hd.last he h₁ hnone hv howed hs hn
    exact ⟨s', D, (congrArg (Option.bind · _) hset).trans hdel, h⟩
  | items =>
    obtain rfl : l = o₁.words := Option.some.inj (hl.symm.trans hreads)
    rw [← words_congr heq] at howed howed' ⊢
    obtain ⟨s₁, D₁, hitems, h₁, hnone, -⟩ := hd.itemsFree he ho hv hs howed' hn
    obtain ⟨s', D, hdel, h⟩ := hd.last he h₁ hnone hv howed hs hn
    obtain ⟨s₂, hs₂, hfree⟩ := Option.bind_eq_some_iff.1 hitems
    refine ⟨s', D, ?_, h⟩
    rw [hsize', ← hsize]
    dsimp only
    rw [hs₂, Option.bind_some, hfree, Option.bind_some, hdel]
  | array =>
    obtain ⟨hread, hArray⟩ := hreads
    obtain rfl : l = [o₁.contents 0] := Option.some.inj (hl.symm.trans hread)
    obtain ⟨A₀, hA₀, -⟩ := ht.storage v o₁ ho₀ hArray
    have h0 : o₁.contents 0 ≠ 0 := fun h0 => he.null (h0 ▸ (he.live _).2
      (by rw [hA₀]; exact Option.some_ne_none _))
    have hfilter : [o₁.contents 0].filter (· ≠ 0) = [o₁.contents 0] := by simpa using h0
    rw [hfilter] at howed howed' ⊢
    obtain ⟨s₁, D₁, harray, h₁, hnone⟩ := hd.arrayFree he ht ho ho₀ (by rw [hcontents]) hArray hv hs
      howed' hn
    obtain ⟨s', D, hdel, h⟩ := hd.last he h₁ hnone hv howed hs hn
    exact ⟨s', D, (congrArg (Option.bind · _) harray).trans hdel, h⟩
  | function => exact absurd (by rw [ho₀, Option.map_some, hreads]) hm
  | other => exact hreads.elim

/-- **`object_delete`** drops one reference. -/
lemma objectDelete_deletes (root : List ℕ → ℕ) (n : ℕ) :
    Deletes ty s₀ n (objectDelete ty root n) := by
  induction n with
  | zero => exact fun v L own s _ _ hn => absurd hn (Nat.not_lt_zero _)
  | succ n ih =>
    intro v L own s hs howed hn
    by_cases hv0 : v = 0
    · subst hv0
      exact ⟨s, [], by rw [objectDelete, if_pos rfl], .refl hs⟩
    have hfilter : [v].filter (· ≠ 0) = [v] := by simpa using hv0
    rw [hfilter] at howed ⊢
    have hv : v ∈ L := howed.mem v (List.mem_singleton_self v)
    obtain ⟨o, o₀, ho, ho₀, heq, hrc, hle⟩ := hs.counts v hv
    have hpos := howed.enough v
    rw [List.count_singleton_self] at hpos
    have hsmall := he.small v o₀ ho₀
    have hwsub : wsub o.refcount 1 = refs (allOf ty s₀) L v + (own v - 1) := by
      have hlt : (2 : ℕ) ^ 31 < wordMod := Nat.pow_lt_pow_right (by decide) (by decide)
      rw [wsub_eq (by omega) (hle.trans_lt (hsmall.trans hlt))]
      omega
    obtain ⟨T, hT⟩ := Option.ne_none_iff_exists'.1 ((he.live _).1 (he.held v o₀ ho₀).1)
    set o₁ : Obj := { o with refcount := wsub o.refcount 1 } with ho₁
    have heq₁ : uncounted o₁ = uncounted o₀ := (uncounted_refcount o _).trans heq
    set s₁ : St := { s with toSt := s.toSt.put v o₁ }
    have hv₁ : s₁.objs v = some o₁ := Function.update_self ..
    have hother (a : ℕ) (ha : a ≠ v) : s₁.objs a = s.objs a := Function.update_of_ne ha ..
    have hput : s.setRefcount v (wsub o.refcount 1) = some s₁ := setRefcount_eq ho
    have hdel : objectDelete ty root (n + 1) s v = if wsub o.refcount 1 ≠ 0 then some s₁
        else deleteContents ty root (objectDelete ty root n) v o s₁ := by
      rw [objectDelete, if_neg hv0, ho, Option.bind_some]
      dsimp only
      rw [hput, Option.bind_some]
    by_cases hlast : wsub o.refcount 1 = 0 ∧ Mortal ty s₀ v
    · -- the last reference
      obtain ⟨hzero, hm⟩ := hlast
      have hown : own v = 1 := by omega
      have hrefs : refs (allOf ty s₀) L v = 0 := by omega
      have htypes : ∀ p ∈ kinds ty, p.1 ≠ v := fun p hp h => by
        have := howed.types p hp
        rw [h, List.count_singleton_self] at this
        omega
      have hne (a : ℕ) (ha : a ∈ L.erase v) : a ≠ v := (Finset.mem_erase.1 ha).1
      have hs₁ : Sound ty s₀ (L.erase v) _ s₁ := (hs.erase hv hrefs htypes).congr (fun _ _ => rfl)
        (fun a ha => hother a (hne a ha)) fun _ _ _ _ => rfl
      have hE : Disjoint {v} (L.erase v) :=
        Finset.disjoint_singleton_left.2 (Finset.notMem_erase v L)
      have hcard : (L.erase v).card < n := by
        have := Finset.card_erase_add_one hv
        omega
      obtain ⟨s', D, hf, h, hnone⟩ := Deletes.contents he ht root ih hv₁ ho₀ heq₁ heq hm
        (Finset.notMem_erase v L) (hs.trees v hv) hs₁ (howed.erase hs hrefs) hcard
      have h' : After ty s₀ (insert v ∅) (L.erase v) _ (allOf ty s₀ v) s D s' :=
        { h with
          outside := fun a ha hav => (h.outside a ha hav).trans
            (hother a fun h => hav (Finset.mem_singleton.2 h)) }
      refine ⟨s', v :: D, ?_, h'.node hv hm hown hrefs hnone⟩
      rw [hdel, if_neg (not_not_intro hzero), hf]
    · -- not the last one, or a function
      have hkeep : Mortal ty s₀ v → 0 < own v - 1 + refs (allOf ty s₀) L v := fun hm => by
        have hne : wsub o.refcount 1 ≠ 0 := fun h => hlast ⟨h, hm⟩
        omega
      have hs' : Sound ty s₀ L (fun a => own a - [v].count a) s₁ := by
        refine ⟨fun a ha => ?_, hs.trees, hs.closed, hs.types⟩
        by_cases hav : a = v
        · subst hav
          refine ⟨o₁, o₀, hv₁, ho₀, heq₁, ?_, (hwsub.trans_le (by omega)).trans hle⟩
          rw [List.count_singleton_self]
          exact hwsub
        · obtain ⟨o', o₀', ho', ho₀', heq', hrc', hle'⟩ := hs.counts a ha
          exact ⟨o', o₀', (hother a hav).trans ho', ho₀', heq', by simpa [Ne.symm hav] using hrc',
            hle'⟩
      have hf : objectDelete ty root (n + 1) s v = some s₁ := by
        rw [hdel]
        split_ifs with hzero
        · rfl
        · have hm : ¬ Mortal ty s₀ v := fun hm => hlast ⟨not_not.1 hzero, hm⟩
          rw [Mortal, not_not, ho₀, Option.map_some] at hm
          have hc : partOf ty s₀.toSt o₀ = some .function := kindFrom_mem hT ht.parts
            (by simp [Delete.parts, Option.some.inj hm])
          have htL : o₀.type ∈ L := hs.closed v hv _ (by simp [allOf, ho₀])
          rw [deleteContents, hs'.partOf_eq htL heq, hc]
          rfl
      exact ⟨s₁, [], hf, .keep hkeep, by simpa using hs', by simp, fun a ha _ =>
        hother a fun h => ha (h ▸ hv), fun _ _ _ => rfl, rfl, rfl, rfl⟩

end Contents

/-! ### Deleting -/

variable {ext : ℕ → ℕ} {A : Finset ℕ}

/-- The references from objects are those from contents and those from types. -/
lemma refs_allOf (hA : ∀ a ∈ A, s.objs a ≠ none) (b : ℕ) :
    refs (allOf ty s) A b = refs (kidsOf ty s) A b + typeRefs s A b := by
  have hcount (a : ℕ) (ha : a ∈ A) : (allOf ty s a).count b =
      (kidsOf ty s a).count b + if (s.objs a).map Obj.type = some b then 1 else 0 := by
    obtain ⟨o, ho⟩ := Option.ne_none_iff_exists'.1 (hA a ha)
    simp only [allOf, ho, Option.map_some, Option.toList_some, List.singleton_append,
      List.count_cons, Option.some.injEq, beq_iff_eq]
  rw [refs, Finset.sum_congr rfl hcount, Finset.sum_add_distrib, refs, typeRefs, Finset.card_filter]

/-- Every reference that counts is there at the start. -/
lemma sound_self (he : Exact ty L ext s) : Sound ty s L ext s := by
  refine ⟨fun a ha => ?_, fun _ _ _ _ => rfl, fun a ha b hb => ?_, fun p hp => (he.types p hp).1⟩
  · obtain ⟨o, ho⟩ := Option.ne_none_iff_exists'.1 ((he.live a).1 ha)
    exact ⟨o, o, ho, ho, rfl, by rw [he.count a o ho, refs_allOf fun a => (he.live a).1], le_rfl⟩
  · rcases List.mem_append.1 hb with hb | hb
    · obtain ⟨o, ho⟩ := Option.ne_none_iff_exists'.1 ((he.live a).1 ha)
      obtain rfl : o.type = b := by simpa [ho, eq_comm] using hb
      exact (he.held a o ho).1
    · exact he.closed a ha b hb

/-- An array refers to its subarray. -/
lemma Typed.storage_mem (ht : Typed ty s) (he : Exact ty L ext s) (ho : s.objs a = some o)
    (harray : o.type = ty.arrayType) : o.contents 0 ∈ kidsOf ty s a := by
  obtain ⟨T, hT⟩ := Option.ne_none_iff_exists'.1 ((he.live _).1 (he.held a o ho).1)
  have hkind : kindOf ty s.toSt o = some .array :=
    kindFrom_mem hT ht.differ (by simp [kinds, harray])
  obtain ⟨A, hA, -⟩ := ht.storage a o ho harray
  have h0 : o.contents 0 ≠ 0 := fun h0 => he.null (h0 ▸ (he.live _).2
    (by rw [hA]; exact Option.some_ne_none _))
  simp [kidsOf, ho, refsOf, hkind, h0]

/-- What is left has the types and the arrays that it had. -/
lemma Typed.left (ht : Typed ty s) (he : Exact ty L ext s) (h : Left ty own s L' s') (hsub : L' ⊆ L)
    (hle : ∀ a, own a ≤ ext a) : Typed ty s' := by
  have hget {a : ℕ} {o : Obj} (ho : s'.objs a = some o) : a ∈ L' ∧ ∃ o₀, s.objs a = some o₀ ∧
      uncounted o = uncounted o₀ := by
    have ha : a ∈ L' := (h.exact.live a).2 (by rw [ho]; exact Option.some_ne_none o)
    have hk := h.kept a ha
    rw [ho, Option.map_some, eq_comm, Option.map_eq_some_iff] at hk
    obtain ⟨o₀, ho₀, heq⟩ := hk
    exact ⟨ha, o₀, ho₀, heq.symm⟩
  refine ⟨?_, fun a o ho => ?_, fun a o ho harray => ?_, fun x hx => ?_⟩
  · refine ht.differ.imp_of_mem fun {p q} hp hq hpq => ?_
    rw [← hpq]
    exact objEq_congr (h.kept _ (h.exact.types p hp).1) (h.kept _ (h.exact.types q hq).1)
  · obtain ⟨-, o₀, ho₀, heq⟩ := hget ho
    rw [(uncounted_iff.1 heq).1]
    exact ht.typed a o₀ ho₀
  · obtain ⟨ha, o₀, ho₀, heq⟩ := hget ho
    obtain ⟨htype₀, -, hcontents⟩ := uncounted_iff.1 heq
    rw [htype₀] at harray
    obtain ⟨A₀, hA₀, hAtype, hone⟩ := ht.storage a o₀ ho₀ harray
    have hmem : o₀.contents 0 ∈ kidsOf ty s a := ht.storage_mem he ho₀ harray
    have harrL : o₀.contents 0 ∈ L' := h.exact.closed a ha _ (h.kids a ha ▸ hmem)
    obtain ⟨A, hA⟩ := Option.ne_none_iff_exists'.1 ((h.exact.live _).1 harrL)
    obtain ⟨-, A₁, hA₁, hAeq⟩ := hget hA
    obtain rfl := Option.some.inj (hA₁.symm.trans hA₀)
    refine ⟨A, hcontents ▸ hA, (uncounted_iff.1 hAeq).1.trans hAtype, ?_⟩
    have h1 := h.exact.count _ A hA
    have h2 := he.count _ A₁ hA₁
    have h3 : 0 < refs (kidsOf ty s') L' (o₀.contents 0) :=
      refs_pos.2 ⟨a, ha, h.kids a ha ▸ hmem⟩
    have h4 : refs (kidsOf ty s') L' (o₀.contents 0) ≤ refs (kidsOf ty s) L (o₀.contents 0) := by
      rw [refs_congr h.kids]
      exact refs_mono hsub
    have h5 : typeRefs s' L' (o₀.contents 0) ≤ typeRefs s L (o₀.contents 0) := by
      refine Finset.card_le_card fun b hb => ?_
      obtain ⟨hb, htb⟩ := Finset.mem_filter.1 hb
      have hk := congrArg (Option.map Obj.type) (h.kept b hb)
      rw [Option.map_map, Option.map_map] at hk
      exact Finset.mem_filter.2 ⟨hsub hb, hk.symm.trans htb⟩
    have h6 := hle (o₀.contents 0)
    omega
  · rw [h.gcSet, List.mem_filter, decide_eq_true_iff] at hx
    have hk := congrArg (Option.map Obj.type) (h.kept (x - 8) hx.2)
    rw [Option.map_map, Option.map_map] at hk
    exact hk.trans (ht.functions x hx.1)

/-- What is left when the references in `l` were dropped -/
lemma After.left (ht : Typed ty s) (he : Exact ty L ext s) (h : After ty s ∅ L ext l s D s')
    (howed : Owed ty L ext l) : Left ty (fun a => ext a - l.count a) s (L \ D.toFinset) s' := by
  have hL (a : ℕ) (ha : a ∈ D) : ext a = l.count a := h.cascade.dropped a ha
  have htype (p : ℕ × Kind) (hp : p ∈ kinds ty) :
      p.1 ∈ L \ D.toFinset ∧ 0 < ext p.1 - l.count p.1 := by
    have := howed.types p hp
    refine ⟨Finset.mem_sdiff.2 ⟨(he.types p hp).1, fun hpD => ?_⟩, by omega⟩
    have := hL p.1 (List.mem_toFinset.1 hpD)
    omega
  have hkept (a : ℕ) (ha : a ∈ L \ D.toFinset) :
      (s'.objs a).map uncounted = (s.objs a).map uncounted := by
    obtain ⟨o, o₀, ho, ho₀, heq, -⟩ := h.sound.counts a ha
    rw [ho, ho₀, Option.map_some, Option.map_some, heq]
  have hrest : Remains ty L (L \ D.toFinset) s s' := by
    refine ⟨Finset.sdiff_subset, fun a ha => ?_, hkept, h.sound.trees, fun a ha b hb =>
      h.sound.closed a ha b (List.mem_append_right _ hb)⟩
    by_cases haL : a ∈ L
    · refine h.freed a (List.mem_toFinset.1 ?_)
      by_contra haD
      exact ha (Finset.mem_sdiff.2 ⟨haL, haD⟩)
    · rw [h.outside a haL (Finset.notMem_empty a)]
      by_contra hne
      exact haL ((he.live a).2 hne)
  have hset : s'.gcSet = s.gcSet.filter fun x => x - 8 ∈ L \ D.toFinset := by
    rw [h.gcSet, eq_comm, List.filter_eq_self]
    refine fun x hx => decide_eq_true (Finset.mem_sdiff.2 ⟨(he.functions x hx).2, fun hxD => ?_⟩)
    exact h.cascade.hm _ (List.mem_toFinset.1 hxD) (ht.functions x hx)
  obtain ⟨hexact, hkids⟩ := hrest.exact (fun a => ext a - l.count a) he htype
    (fun a o ho => by
      obtain ⟨p, hp, heq⟩ := ht.typed a o ho
      exact heq ▸ htype p hp)
    (fun a ha o ho => by
      obtain ⟨o', -, ho', -, -, hrc, -⟩ := h.sound.counts a ha
      obtain rfl := Option.some.inj (ho.symm.trans ho')
      rw [hrc, refs_allOf fun b hb => (he.live b).1 (Finset.mem_sdiff.1 hb).1])
    (fun a => Nat.sub_le ..) hset (by rw [h.gcNumAlloced, h.gcSet, he.num.1])
  exact ⟨hexact, hkept, hkids, hset, h.next⟩

/-- A reference that is held is dropped. -/
lemma objectDelete_frees (root : List ℕ → ℕ) (he : Exact ty L ext s) (ht : Typed ty s)
    (hn : L.card < n) (hv : v ∈ L) (hheld : 0 < ext v)
    (htype : ∀ p ∈ kinds ty, p.1 = v → 1 < ext v) :
    ∃ s' R, objectDelete ty root n s v = some s' ∧
      Left ty (fun a => ext a - [v].count a) s (L \ R) s' ∧ Typed ty s' ∧
      ∀ a ∈ L, a ∈ R ↔ Dies (allOf ty s) (Mortal ty s) L ext [v] a := by
  have hv0 : v ≠ 0 := fun h0 => he.null (h0 ▸ hv)
  have hfilter : [v].filter (· ≠ 0) = [v] := by simpa using hv0
  have howed : Owed ty L ext [v] := by
    refine ⟨fun a => ?_, fun a ha => List.mem_singleton.1 ha ▸ hv, fun p hp => ?_⟩
    · by_cases hav : a = v
      · rw [hav, List.count_singleton_self]
        exact hheld
      · simp [Ne.symm hav]
    · by_cases hpv : p.1 = v
      · rw [hpv, List.count_singleton_self]
        exact htype p hp hpv
      · simpa [Ne.symm hpv] using (he.types p hp).2
  obtain ⟨s', D, hdel, h⟩ := objectDelete_deletes he ht root n v L ext s (sound_self he)
    (by rwa [hfilter]) hn
  rw [hfilter] at h
  have hleft := h.left ht he howed
  refine ⟨s', D.toFinset, hdel, hleft, ht.left he hleft Finset.sdiff_subset
    fun a => Nat.sub_le .., fun a ha => ?_⟩
  rw [List.mem_toFinset]
  exact h.cascade.mem_iff ha

/-- **`object_delete`**, when a reference that is held is dropped, frees exactly the objects that
are not functions and that had no other references than from objects that are freed. -/
theorem objectDelete_exact (root : List ℕ → ℕ) (he : Exact ty L ext s) (ht : Typed ty s)
    (hn : L.card < n) (hv : v ∈ L) (hheld : 0 < ext v)
    (htype : ∀ p ∈ kinds ty, p.1 = v → 1 < ext v) :
    ∃ s' L', objectDelete ty root n s v = some s' ∧
      Left ty (fun a => ext a - [v].count a) s L' s' ∧ Typed ty s' ∧
      ∀ a, a ∈ L' ↔ a ∈ L ∧ ¬ Dies (allOf ty s) (Mortal ty s) L ext [v] a := by
  obtain ⟨s', R, hdel, hleft, ht', hiff⟩ := objectDelete_frees root he ht hn hv hheld htype
  refine ⟨s', L \ R, hdel, hleft, ht', fun a => ?_⟩
  rw [Finset.mem_sdiff]
  exact and_congr_right fun ha => not_congr (hiff a ha)

/-- Eight types, and a list of a number, of a set with the number, and of a function that refers to
the number. -/
def nestedList : List (ℕ × Obj) :=
  [(8, .ofWords 9 8 [1]), (16, .ofWords 2 8 [2]), (24, .ofWords 2 8 [3]), (32, .ofWords 2 8 [4]),
    (40, .ofWords 2 8 [5]), (48, .ofWords 2 8 [6]), (56, .ofWords 1 8 [7]), (64, .ofWords 1 8 [8]),
    (72, .ofWords 1 24 [80]), (80, .ofWords 1 32 [88, 96, 104]), (88, .ofWords 3 16 [5, 0]),
    (96, .ofWords 1 40 [200]), (104, .ofWords 1 48 [88, 0, 0])]

/-- The function is registered. -/
def oneRegistered : St :=
  ⟨⟨ofTable nestedList, 112⟩, fun x => if x = 200 then some (.node 0 .nil 88 .nil) else none, [112], 1⟩

/-- The types and the list are held. -/
def listHeld (a : ℕ) : ℕ := if a ≤ 72 then 1 else 0

/-- The list is deleted. -/
theorem objectDelete_exact_list : ∃ s' L',
    objectDelete eightTypes (fun _ => 0) 14 oneRegistered 72 = some s' ∧
      Left eightTypes (fun a => listHeld a - [72].count a) oneRegistered L' s' ∧
      Typed eightTypes s' ∧
      ∀ a, a ∈ L' ↔ a ∈ (nestedList.map Prod.fst).toFinset ∧
        ¬ Dies (allOf eightTypes oneRegistered) (Mortal eightTypes oneRegistered)
          (nestedList.map Prod.fst).toFinset listHeld [72] a := by
  have hexact : Exact eightTypes (nestedList.map Prod.fst).toFinset listHeld oneRegistered :=
    exact_ofTable rfl (by decide) (by decide) (by decide) (by decide) (by decide) (by decide)
      (by decide) (by decide) (by decide) (by decide) (by decide)
  have hall {P : ℕ → Obj → Prop} (h : ∀ p ∈ nestedList, P p.1 p.2) (a : ℕ) (o : Obj)
      (ho : oneRegistered.objs a = some o) : P a o := h (a, o) (mem_of_ofTable ho)
  have hstorage : ∀ p ∈ nestedList, p.2.type = eightTypes.arrayType →
      (oneRegistered.objs (p.2.contents 0)).map (fun a => (a.type, a.refcount)) =
        some (eightTypes.subarrayType, 1) := by decide
  refine objectDelete_exact _ hexact
    ⟨by decide, hall (by decide), fun a o ho htype => ?_, by decide⟩
    (by decide) (by decide) (by decide) (by decide)
  have h := hstorage (a, o) (mem_of_ofTable ho) htype
  obtain ⟨arr, harr, heq⟩ := Option.map_eq_some_iff.1 h
  exact ⟨arr, harr, (Prod.mk.inj heq).1, (Prod.mk.inj heq).2⟩

example : (objectDelete eightTypes (fun _ => 0) 14 oneRegistered 72).map
    (fun s => [72, 80, 88, 96, 104].map fun a => (s.objs a).map Obj.refcount) =
      some [none, none, some 1, none, some 0] := by decide

end LispMachine.DeleteExact

