import LispMachine.CollectMark

/-!
The sweep of the collector: what is still visited is taken, once, with the references that it
holds.
-/

namespace LispMachine.CollectSweep

open LispMachine.Memory LispMachine.Collect LispMachine.CollectMark
open LispMachine.Lib.BalTree LispMachine.Lib.Marking
open LispMachine.Object (Types)
open LispMachine.Store (Obj)

variable (ty : Types)

/-- The tree of a set is at `x`. -/
def IsRoot (s : St) (a x : ℕ) : Prop :=
  x ≠ 0 ∧ ∃ o, s.objs a = some o ∧ kindOf ty s.toSt o = some .tree ∧ o.contents 0 = x

/-- No two sets have the same tree. -/
def Distinct (s : St) : Prop := ∀ a b x, IsRoot ty s a x → IsRoot ty s b x → a = b

/-- Two states with objects that differ in their counts; the trees of the sets in `R` are freed. -/
structure SameBut (R : List ℕ) (s s' : St) : Prop where
  objs : ∀ a, (s'.objs a).map uncounted = (s.objs a).map uncounted
  next : s'.next = s.next
  trees : ∀ x ≠ 0, (∀ a ∈ R, ¬ IsRoot ty s a x) → s'.trees x = s.trees x
  gcSet : s'.gcSet = s.gcSet
  gcNumAlloced : s'.gcNumAlloced = s.gcNumAlloced

/-- What an object adds to the number that `sweep` returns. -/
def weight (s : St) (a : ℕ) : ℕ :=
  if ((s.objs a).bind (kindOf ty s.toSt)) = some .leaf then 2 else 1

variable {ty} {kids : ℕ → List ℕ} {A L G : Finset ℕ} {rc rc' tmp : ℕ → ℕ} {s₀ s s' s'' : St}
  {R R' l l₁ l₂ : List ℕ} {o o' : Obj} {a v w x obj n : ℕ}

lemma get_of_objs (h : ∀ a, (s'.objs a).map uncounted = (s.objs a).map uncounted)
    (ho : s.objs a = some o) : ∃ o', s'.objs a = some o' ∧ uncounted o' = uncounted o := by
  have h' := h a
  rwa [ho, Option.map_some, Option.map_eq_some_iff] at h'

lemma IsRoot.congr (h : ∀ a, (s'.objs a).map uncounted = (s.objs a).map uncounted)
    (hr : IsRoot ty s a x) : IsRoot ty s' a x := by
  obtain ⟨hx, o, ho, hk, hc⟩ := hr
  obtain ⟨o', ho', heq⟩ := get_of_objs h ho
  exact ⟨hx, o', ho', (kindOf_congr heq (h _) fun p _ => h p.1).trans hk,
    (uncounted_iff.1 heq).2.2 ▸ hc⟩

lemma isRoot_congr (h : ∀ a, (s'.objs a).map uncounted = (s.objs a).map uncounted) :
    IsRoot ty s' a x ↔ IsRoot ty s a x := ⟨.congr fun a => (h a).symm, .congr h⟩

namespace SameBut

lemma of_same (h : Same s s') : SameBut ty R s s' :=
  ⟨h.objs, h.next, fun _ _ _ => congrFun h.trees _, h.gcSet, h.gcNumAlloced⟩

lemma trans (h : SameBut ty R s s') (h' : SameBut ty R s' s'') : SameBut ty R s s'' :=
  ⟨fun a => (h'.objs a).trans (h.objs a), h'.next.trans h.next, fun x hx hR =>
    (h'.trees x hx fun a ha hr => hR a ha ((isRoot_congr h.objs).1 hr)).trans (h.trees x hx hR),
    h'.gcSet.trans h.gcSet, h'.gcNumAlloced.trans h.gcNumAlloced⟩

lemma mono (h : SameBut ty R s s') (hsub : ∀ a ∈ R, a ∈ R') : SameBut ty R' s s' :=
  { h with trees := fun x hx hR => h.trees x hx fun a ha => hR a (hsub a ha) }

/-- What is not taken yet can be read. -/
lemma refsOf (h : SameBut ty R s₀ s) (hd : Distinct ty s₀) (ho : s₀.objs a = some o) (ha : a ∉ R)
    (heq : uncounted o' = uncounted o) : refsOf ty s o' = CollectMark.refsOf ty s₀ o := by
  have hkind : kindOf ty s.toSt o' = kindOf ty s₀.toSt o :=
    kindOf_congr heq (h.objs _) fun p _ => h.objs p.1
  refine refsOf_eq heq hkind fun hk => treeAt_congr fun hx => h.trees _ hx fun b hb hr => ha ?_
  rwa [hd a b _ ⟨hx, o, ho, hk, rfl⟩ hr]

end SameBut

variable (ty L G tmp s₀) in
/-- A state on the way of a sweep, with these counts; `G` is what is visited. -/
structure At (R : List ℕ) (rc : ℕ → ℕ) (s : St) : Prop where
  same : SameBut ty R s₀ s
  counts : ∀ a ∈ L, ∃ o, s.objs a = some o ∧ Word o.refcount (rc a) (tmp a) (a ∈ G)
  nodup : R.Nodup

/-- A reference is dropped. -/
lemma At.drop (h : At ty L G tmp s₀ R rc s) (hv : v ∈ L) (hv0 : v ≠ 0)
    (hpos : 0 < rc v) : ∃ s', decreaseRefcs s v = some s' ∧
      At ty L G tmp s₀ R (Function.update rc v (rc v - 1)) s' := by
  obtain ⟨o, ho, hw⟩ := h.counts v hv
  rw [← Nat.sub_add_cancel hpos] at hw
  refine ⟨_, by rw [decreaseRefcs, if_neg hv0, ho, Option.bind_some, setRefcount_eq ho],
    h.same.trans (.of_same (same_put ho)), fun b hb => ?_, h.nodup⟩
  by_cases hbv : b = v
  · subst hbv
    exact ⟨_, Function.update_self .., by simpa using hw.pred⟩
  · obtain ⟨o', ho', hw'⟩ := h.counts b hb
    exact ⟨o', (Function.update_of_ne hbv ..).trans ho', by simpa [hbv] using hw'⟩

variable (ty kids A L G tmp s₀ n) in
/-- A computation sweeps the elements of `l` and drops the references in `d`, when fewer than `n`
objects are not taken yet, and adds up what they weigh. -/
def Sweeps (l d : List ℕ) (f : (St × List ℕ) × ℕ → Option ((St × List ℕ) × ℕ)) : Prop :=
  ∀ s R rc m, At ty L G tmp s₀ R rc s → (A \ R.toFinset).card < n →
    Enough kids G d R.toFinset rc → ∃ s' R' rc' N,
      f ((s, R), m) = some ((s', R'), m + ∑ a ∈ N, weight ty s₀ a) ∧
      At ty L G tmp s₀ R' rc' s' ∧ Swept kids G l d R.toFinset R'.toFinset rc rc' N

namespace Sweeps

variable {f g : (St × List ℕ) × ℕ → Option ((St × List ℕ) × ℕ)} {d d₁ d₂ : List ℕ}
  {sweep : St × List ℕ → ℕ → Option ((St × List ℕ) × ℕ)}

lemma nil : Sweeps ty kids A L G tmp s₀ n [] [] some := fun s R rc m h _ _ =>
  ⟨s, R, rc, ∅, by simp, h, .nil⟩

lemma bind (hf : Sweeps ty kids A L G tmp s₀ n l₁ d₁ f)
    (hg : Sweeps ty kids A L G tmp s₀ n l₂ d₂ g) :
    Sweeps ty kids A L G tmp s₀ n (l₁ ++ l₂) (d₁ ++ d₂) fun w => (f w).bind g := by
  intro s R rc m h hn he
  have he₁ : Enough kids G d₁ R.toFinset rc := fun u => by
    have := he u
    rw [List.count_append] at this
    omega
  obtain ⟨s₁, R₁, rc₁, N₁, hf₁, h₁, hs₁⟩ := hf s R rc m h hn he₁
  have hn₁ : (A \ R₁.toFinset).card < n := by
    refine (Finset.card_le_card (Finset.sdiff_subset_sdiff le_rfl ?_)).trans_lt hn
    rw [hs₁.all]
    exact Finset.subset_union_left
  obtain ⟨s', R', rc', N₂, hf₂, h', hs'⟩ := hg s₁ R₁ rc₁ _ h₁ hn₁ (hs₁.enough he)
  have hdis : Disjoint N₁ N₂ := Finset.disjoint_left.2 fun u hu hu' =>
    Finset.disjoint_left.1 hs'.fresh hu' (hs₁.all ▸ Finset.mem_union_right _ hu)
  refine ⟨s', R', rc', N₁ ∪ N₂, ?_, h', hs₁.append hs'⟩
  rw [Finset.sum_union hdis, ← Nat.add_assoc]
  exact (congrArg (Option.bind · g) hf₁).trans hf₂

/-- What a call of `sweep` returns is added. -/
def plus (sweep : St × List ℕ → ℕ → Option ((St × List ℕ) × ℕ)) (v : ℕ) (w : (St × List ℕ) × ℕ) :
    Option ((St × List ℕ) × ℕ) :=
  (sweep w.1 v).map fun w' => (w'.1, w.2 + w'.2)

lemma sweepItem_eq : sweepItem sweep v =
    fun w => ((decreaseRefcs w.1.1 v).map fun s => ((s, w.1.2), w.2)).bind (plus sweep v) := by
  funext w
  unfold sweepItem
  cases decreaseRefcs w.1.1 v <;> rfl

/-- A reference is dropped, and what it leads to is swept. -/
lemma item (hv : v = 0 ∨ v ∈ L)
    (hs : Sweeps ty kids A L G tmp s₀ n ([v].filter (· ≠ 0)) [] (plus sweep v)) :
    Sweeps ty kids A L G tmp s₀ n ([v].filter (· ≠ 0)) ([v].filter (· ≠ 0))
      (sweepItem sweep v) := by
  have hdrop : Sweeps ty kids A L G tmp s₀ n [] ([v].filter (· ≠ 0)) fun w =>
      (decreaseRefcs w.1.1 v).map fun s => ((s, w.1.2), w.2) := by
    intro s R rc m h hn he
    rcases Decidable.em (v = 0) with rfl | hv0
    · exact ⟨s, R, rc, ∅, by simp [decreaseRefcs], h, .nil⟩
    · rw [List.filter_cons_of_pos (by simpa using hv0), List.filter_nil] at he ⊢
      have hpos : 0 < rc v := by
        have := he v
        rw [List.count_singleton_self] at this
        omega
      obtain ⟨s', hf, h'⟩ := h.drop (hv.resolve_left hv0) hv0 hpos
      refine ⟨s', R, _, ∅, by simp [hf], h', .drop ?_ fun u hu => Function.update_of_ne hu ..⟩
      rw [Function.update_self]
      omega
  have hboth := hdrop.bind hs
  rw [List.nil_append, List.append_nil] at hboth
  rw [sweepItem_eq]
  exact hboth

variable (hA : A ⊆ L) (hm : ∀ v, v = 0 ∨ v ∈ A →
  Sweeps ty kids A L G tmp s₀ n ([v].filter (· ≠ 0)) [] (plus sweep v))

include hA hm

lemma tree {t : BTree ℕ} (ht : ∀ v ∈ preorder t, v = 0 ∨ v ∈ A) :
    Sweeps ty kids A L G tmp s₀ n ((preorder t).filter (· ≠ 0)) ((preorder t).filter (· ≠ 0))
      (sweepTr sweep t) := by
  induction t with
  | nil => exact nil
  | node b left data right ihl ihr =>
    simp only [preorder, List.mem_cons, List.mem_append] at ht
    have hl := ihl fun v hv => ht v (.inr (.inl hv))
    have hr := ihr fun v hv => ht v (.inr (.inr hv))
    have hdata := item ((ht data (.inl rfl)).imp_right (hA ·)) (hm data (ht data (.inl rfl)))
    have hall := hdata.bind (hl.bind hr)
    rw [← List.filter_append, ← List.filter_append] at hall
    exact hall

lemma items (ho : s₀.objs obj = some o) {k i : ℕ}
    (hj : ∀ j < k, o.contents (i + j) = 0 ∨ o.contents (i + j) ∈ A) :
    Sweeps ty kids A L G tmp s₀ n (((List.range' i k).map o.contents).filter (· ≠ 0))
      (((List.range' i k).map o.contents).filter (· ≠ 0)) (sweepItems sweep obj k i) := by
  induction k generalizing i with
  | zero => exact nil
  | succ k ih =>
    have hrest := ih (i := i + 1) fun j hk => by
      rw [Nat.add_assoc, Nat.add_comm 1]
      exact hj (j + 1) (by omega)
    have hall := (item ((hj 0 (by omega)).imp_right (hA ·)) (hm _ (hj 0 (by omega)))).bind hrest
    rw [← List.filter_append] at hall
    intro s R rc m h hn he
    obtain ⟨o', ho', heq⟩ := get_of_objs h.same.objs ho
    obtain ⟨s', R', rc', N, hf, h'⟩ := hall s R rc m h hn he
    refine ⟨s', R', rc', N, ?_, h'⟩
    rw [sweepItems, ho', Option.bind_some, (uncounted_iff.1 heq).2.2]
    exact hf

/-- What the contents of an object refer to is swept. -/
lemma contents (hheap : Heap ty kids L s₀) (hclosed : ∀ a ∈ A, ∀ b ∈ kids a, b ∈ A)
    (hd : Distinct ty s₀) (hobj : obj ∈ A) (hR : obj ∉ R) (h : At ty L G tmp s₀ R rc s)
    (hn : (A \ (obj :: R).toFinset).card < n) (he : Enough kids G (kids obj) (obj :: R).toFinset rc)
    (ho : s.objs obj = some o) : ∃ s' R' rc' N,
      (sweepContents ty sweep obj o (s, obj :: R)).map (fun w => (w.1, w.2 + 1)) =
        some ((s', R'), weight ty s₀ obj + ∑ a ∈ N, weight ty s₀ a) ∧
      At ty L G tmp s₀ R' rc' s' ∧
      Swept kids G (kids obj) (kids obj) (obj :: R).toFinset R'.toFinset rc rc' N := by
  obtain ⟨o₀, l, ho₀, hl, hkids, -⟩ := hheap obj (hA hobj)
  obtain ⟨o', ho', heq⟩ := get_of_objs h.same.objs ho₀
  obtain rfl : o' = o := Option.some.inj (ho'.symm.trans ho)
  have h₁ : At ty L G tmp s₀ (obj :: R) rc s :=
    ⟨h.same.mono fun _ => List.mem_cons_of_mem _, h.counts, List.nodup_cons.2 ⟨hR, h.nodup⟩⟩
  have hml : ∀ v ∈ l, v = 0 ∨ v ∈ A := fun v hv => by
    by_cases hv0 : v = 0
    · exact .inl hv0
    · exact .inr (hclosed obj hobj v (hkids ▸ List.mem_filter.2 ⟨hv, by simpa using hv0⟩))
  have hl' := hl
  rw [← h.same.refsOf hd ho₀ hR heq] at hl'
  rw [CollectMark.refsOf, Option.bind_eq_some_iff] at hl hl'
  obtain ⟨k, hk, hl⟩ := hl
  obtain ⟨k', hk', hl'⟩ := hl'
  obtain rfl : k' = k := Option.some.inj (hk'.symm.trans ((kindOf_congr heq (h.same.objs _)
    fun p _ => h.same.objs p.1).trans hk))
  have hweight : weight ty s₀ obj = if some k' = some .leaf then 2 else 1 := by
    rw [weight, ho₀, Option.bind_some, hk]
  have hrun {f : (St × List ℕ) × ℕ → Option ((St × List ℕ) × ℕ)} {s₁ : St}
      (hf : Sweeps ty kids A L G tmp s₀ n (l.filter (· ≠ 0)) (l.filter (· ≠ 0)) f)
      (hs₁ : At ty L G tmp s₀ (obj :: R) rc s₁) (hw : weight ty s₀ obj = 1)
      (hc : sweepContents ty sweep obj o' (s, obj :: R) = f ((s₁, obj :: R), 0)) : ∃ s' R' rc' N,
        (sweepContents ty sweep obj o' (s, obj :: R)).map (fun w => (w.1, w.2 + 1)) =
          some ((s', R'), weight ty s₀ obj + ∑ a ∈ N, weight ty s₀ a) ∧
        At ty L G tmp s₀ R' rc' s' ∧
        Swept kids G (kids obj) (kids obj) (obj :: R).toFinset R'.toFinset rc rc' N := by
    rw [hkids] at hf
    obtain ⟨s', R', rc', N, hf', h'⟩ := hf s₁ (obj :: R) rc 0 hs₁ hn he
    refine ⟨s', R', rc', N, ?_, h'⟩
    rw [hc, hf', Option.map_some, Nat.zero_add, Nat.add_comm, hw]
  have hc : sweepContents ty sweep obj o' (s, obj :: R) = _ := congrArg (Option.bind · _) hk'
  rw [Option.bind_some] at hc
  cases k' with
  | leaf =>
    obtain rfl := Option.some.inj hl
    rw [← hkids]
    exact ⟨s, obj :: R, rc, ∅, by rw [hc, hweight]; rfl, h₁, .nil⟩
  | tree =>
    obtain ⟨t, ht, rfl⟩ := Option.map_eq_some_iff.1 hl'
    have hfree : At ty L G tmp s₀ (obj :: R) rc (s.freeTree (o'.contents 0)) := by
      refine ⟨⟨h₁.same.objs, h₁.same.next, fun x hx hno => ?_, h₁.same.gcSet,
        h₁.same.gcNumAlloced⟩, h₁.counts, h₁.nodup⟩
      have hne : x ≠ o'.contents 0 := by
        rintro rfl
        exact hno obj List.mem_cons_self ⟨hx, o₀, ho₀, hk, by rw [(uncounted_iff.1 heq).2.2]⟩
      exact (Function.update_of_ne hne ..).trans (h₁.same.trees x hx hno)
    exact hrun (tree hA hm hml) hfree hweight (hc.trans (congrArg (Option.bind · _) ht))
  | items =>
    obtain rfl := Option.some.inj hl'
    have hcontents := (uncounted_iff.1 heq).2.2
    have hwords : o'.words = (List.range' 0 o'.size).map o₀.contents := by
      rw [Obj.words, hcontents, List.range_eq_range']
    have hall := items hA hm ho₀ (k := o'.size) (i := 0) fun j hj => by
      rw [← hcontents, Nat.zero_add]
      exact hml _ (List.mem_map.2 ⟨j, List.mem_range.2 hj, rfl⟩)
    rw [← hwords] at hall
    exact hrun hall h₁ hweight hc
  | array =>
    obtain rfl := Option.some.inj hl'
    exact hrun (f := sweepItem sweep (o'.contents 0))
      (item ((hml _ (List.mem_singleton_self _)).imp_right (hA ·))
      (hm _ (hml _ (List.mem_singleton_self _)))) h₁ hweight hc
  | other =>
    obtain rfl := Option.some.inj hl
    exact hrun nil h₁ hweight hc

omit hA hm in
/-- **`sweep`** takes what is visited. -/
theorem sweep_sweeps (hheap : Heap ty kids L s₀) (hA : A ⊆ L)
    (hclosed : ∀ a ∈ A, ∀ b ∈ kids a, b ∈ A) (hd : Distinct ty s₀) (n v : ℕ) (hv : v = 0 ∨ v ∈ A) :
    Sweeps ty kids A L G tmp s₀ n ([v].filter (· ≠ 0)) [] (plus (Collect.sweep ty n) v) := by
  induction n generalizing v with
  | zero => exact fun s R rc m _ hn => absurd hn (Nat.not_lt_zero _)
  | succ n ih =>
    intro s R rc m h hn he
    rcases Decidable.em (v = 0) with rfl | hv0
    · exact ⟨s, R, rc, ∅, by simp [plus, Collect.sweep], h, .nil⟩
    · have hvA := hv.resolve_left hv0
      obtain ⟨o, ho, hw⟩ := h.counts v (hA hvA)
      rw [List.filter_cons_of_pos (by simpa using hv0), List.filter_nil]
      simp only [plus, Collect.sweep, hv0, if_false, ho, Option.bind_some]
      by_cases hG : v ∈ G
      · have hvisited := hw.vis.2 hG
        simp only [hvisited, Bool.not_true, Bool.false_eq_true, if_false]
        by_cases hR : v ∈ R
        · rw [if_pos hR]
          exact ⟨s, R, rc, ∅, by simp, h, .again fun _ => List.mem_toFinset.2 hR⟩
        · rw [if_neg hR]
          have hR' : v ∉ R.toFinset := fun h => hR (List.mem_toFinset.1 h)
          have he' := Swept.enough_node hG hR' he
          rw [← List.toFinset_cons] at he'
          have hn' : (A \ (v :: R).toFinset).card < n := by
            refine (Finset.card_lt_card ?_).trans_le (Nat.le_of_lt_succ hn)
            refine Finset.ssubset_iff_of_subset ?_ |>.2 ⟨v, ?_, ?_⟩
            · exact Finset.sdiff_subset_sdiff le_rfl (by simp)
            · exact Finset.mem_sdiff.2 ⟨hvA, hR'⟩
            · simp
          obtain ⟨s', R', rc', N, hf, h', hN⟩ :=
            contents hA ih hheap hclosed hd hvA hR h hn' he' ho
          have hvN : v ∉ N := fun hvN => Finset.disjoint_left.1 hN.fresh hvN (by simp)
          rw [List.toFinset_cons] at hN
          refine ⟨s', R', rc', insert v N, ?_, h', .node hG hR' hN⟩
          rw [hf, Option.map_some, Finset.sum_insert hvN]
      · have hvisited : visited o.refcount = false :=
          Bool.eq_false_iff.2 fun h' => hG (hw.vis.1 h')
        simp only [hvisited, Bool.not_false, if_true]
        exact ⟨s, R, rc, ∅, by simp, h, .again fun h' => absurd h' hG⟩

end Sweeps

end LispMachine.CollectSweep
