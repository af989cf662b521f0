import LispMachine.CollectSweep

/-!
The collector frees the garbage, and nothing else.
-/

namespace LispMachine.CollectExact

open LispMachine.Memory LispMachine.Collect LispMachine.CollectMark LispMachine.CollectSweep
open LispMachine.Lib.Marking
open LispMachine.Object (Types)
open LispMachine.Store (Obj objectDelete)

variable (ty : Types)

/-! ### Searches -/

/-- Between two searches: the objects in `R` are swept, and the references that the others hold are
counted. -/
structure Between (kids : ℕ → List ℕ) (L : Finset ℕ) (out : ℕ → ℕ) (s₀ : St) (R : List ℕ)
    (rc tmp : ℕ → ℕ) (s : St) : Prop where
  same : SameBut ty R s₀ s
  counts : ∀ a ∈ L, ∃ o, s.objs a = some o ∧ Word o.refcount (rc a) (tmp a) (a ∈ R)
  small : ∀ a ∈ L, rc a < 2 ^ 31
  clear : ∀ a ∈ L, a ∉ R → tmp a = 0
  nodup : R.Nodup
  sub : ∀ a ∈ R, a ∈ L
  counted : Counted kids L R.toFinset out rc
  sealed : Sealed kids L R.toFinset

variable {ty} {kids : ℕ → List ℕ} {L : Finset ℕ} {out rc rc' tmp tmp' : ℕ → ℕ} {s₀ s s' : St}
  {R R' : List ℕ} {o o' : Obj} {a d v x n : ℕ}

/-- What is not swept can be read. -/
lemma Between.heap (h : Between ty kids L out s₀ R rc tmp s) (hheap : Heap ty kids L s₀)
    (hd : Distinct ty s₀) : Heap ty kids (L \ R.toFinset) s := by
  intro a ha
  obtain ⟨haL, haR⟩ := Finset.mem_sdiff.1 ha
  obtain ⟨o, l, ho, hl, hkids, hL⟩ := hheap a haL
  obtain ⟨o', ho', heq⟩ := get_of_objs h.same.objs ho
  refine ⟨o', l, ho', (h.same.refsOf hd ho (fun h => haR (List.mem_toFinset.2 h)) heq).trans hl,
    hkids, fun b hb => Finset.mem_sdiff.2 ⟨hL b hb, h.sealed a haL haR b hb⟩⟩

/-- **One search** sweeps the garbage that is reached from `d`. -/
lemma Between.search (h : Between ty kids L out s₀ R rc tmp s) (hheap : Heap ty kids L s₀)
    (hdist : Distinct ty s₀) (h0 : 0 ∉ L) (hd : d ∈ L) (hdR : d ∉ R) (hn : L.card < n) :
    ∃ s' R' rc' tmp', collectFrom ty n s R d =
        some ((s', R'), ∑ a ∈ R'.toFinset \ R.toFinset, weight ty s₀ a) ∧
      Between ty kids L out s₀ R' rc' tmp' s' ∧
      (∀ u, u ∈ R'.toFinset ↔
        u ∈ R.toFinset ∨ u ∈ garbage kids (L \ R.toFinset) out {d}) := by
  classical
  have hL : ∀ a ∈ L, ∀ b ∈ kids a, b ∈ L := fun a ha => by
    obtain ⟨-, -, -, -, -, hb⟩ := hheap a ha
    exact hb
  have hs := h.sealed
  have hdS : d ∉ R.toFinset := fun h => hdR (List.mem_toFinset.1 h)
  have hd0 : d ≠ 0 := fun h => h0 (h ▸ hd)
  have hdA : d ∈ L \ R.toFinset := Finset.mem_sdiff.2 ⟨hd, hdS⟩
  have hcard : (L \ R.toFinset).card < n := (Finset.card_le_card Finset.sdiff_subset).trans_lt hn
  -- marking
  have hat : CollectMark.At ty kids (L \ R.toFinset) L rc s ⟨R.toFinset, tmp, []⟩ s :=
    ⟨h.heap hheap hdist, Finset.sdiff_subset, fun a ha => by simpa using h.counts a ha, .refl s⟩
  obtain ⟨s₁, M₁, N, hmark, hV, hat₁⟩ :=
    markTc_visits hat hdA hd0 (visiting_left.trans_lt hcard)
  have hN (u : ℕ) : u ∈ N ↔ Reach kids d u := visited_iff hL hs hd hdS rfl hV
  have hNA : ∀ u ∈ N, u ∈ L \ R.toFinset := fun u hu => Finset.mem_sdiff.2
    ⟨reach_mem hL hd ((hN u).1 hu), hs.reach hL hd hdS ((hN u).1 hu)⟩
  obtain ⟨q, hq, hqN⟩ := hV.work
  rw [List.append_nil] at hq
  -- the references that were met
  set M₂ : Marks ℕ := { M₁ with tmp := Function.update M₁.tmp d (M₁.tmp d - 1) }
  have htmp : ∀ u ∈ L \ R.toFinset, M₂.tmp u = refs kids N u := fun u hu =>
    hV.uncount (h.clear u (Finset.mem_sdiff.1 hu).1 fun h =>
      (Finset.mem_sdiff.1 hu).2 (List.mem_toFinset.2 h))
  have hlt : ∀ u ∈ L \ R.toFinset, M₂.tmp u < 2 ^ 31 := fun u hu => by
    refine lt_of_le_of_lt ?_ (h.small u (Finset.mem_sdiff.1 hu).1)
    rw [htmp u hu, h.counted u hu]
    exact (refs_mono hNA).trans (Nat.le_add_right _ _)
  -- unmarking
  obtain ⟨s₂, M₃, D, hunmark, hat₂, hR⟩ := unmarkHeld_spec hat₁ (q := q)
    (fun v hv => ⟨hNA v ((hqN v).1 hv), fun h' => h0 (h' ▸ (Finset.mem_sdiff.1
      (hNA v ((hqN v).1 hv))).1)⟩) (unvisiting_left.trans_lt hcard) hlt
  -- sweeping
  have hvis : M₃.vis = ((R.toFinset ∪ N).filter (· ∉ D) : Finset ℕ) := by
    ext u
    rw [hR.mem_vis, hV.vis]
    simp
  set G := (R.toFinset ∪ N).filter (· ∉ D)
  have hmem (u : ℕ) : u ∈ M₃.vis ↔ u ∈ G := by rw [hvis, Finset.mem_coe]
  have hswept : CollectSweep.At ty L G M₃.tmp s₀ R rc s₂ :=
    ⟨h.same.trans (.of_same hat₂.same), fun a ha => by
      obtain ⟨o, ho, hw⟩ := hat₂.counts a ha
      exact ⟨o, ho, hw.congr rfl (hmem a)⟩, h.nodup⟩
  have htmpN : ∀ u ∈ N, M₂.tmp u = refs kids N u := fun u hu => htmp u (hNA u hu)
  have hvis₂ : M₂.vis = M₁.vis := rfl
  have henough := enough_search hL hs hd hdS rfl hV h.counted hvis₂ hR hvis
  obtain ⟨s₃, R', rc', T, hsweep, hat₃, hW⟩ := Sweeps.sweep_sweeps hheap Finset.sdiff_subset
    (fun a ha b hb => (h.heap hheap hdist a ha).choose_spec.choose_spec.2.2.2 b hb) hdist n d
    (.inr hdA) s₂ R rc 0 hswept
    ((Finset.card_le_card Finset.sdiff_subset).trans_lt hcard) henough
  rw [List.filter_cons_of_pos (by simpa using hd0), List.filter_nil] at hW
  obtain ⟨hiff, hcounted, hGR⟩ :=
    search_spec hL hs hd hdS rfl hV h.counted hvis₂ htmpN hqN hR hvis hW
  have hGR' (u : ℕ) : u ∈ G ↔ u ∈ R' := by rw [hGR, List.mem_toFinset]
  have hT : R'.toFinset \ R.toFinset = T := by
    rw [hW.all, Finset.union_sdiff_cancel_left hW.fresh.symm]
  obtain ⟨w, hw, heq⟩ := Option.map_eq_some_iff.1 hsweep
  rw [Nat.zero_add, Nat.zero_add, ← hT] at heq
  refine ⟨s₃, R', rc', M₃.tmp, ?_, ⟨hat₃.same, fun a ha => ?_, fun a ha => ?_, fun a ha hR' => ?_,
    hat₃.nodup, fun a ha => ?_, hcounted, hs.search hiff⟩, hiff⟩
  · rw [collectFrom, hmark, Option.bind_some, hq]
    exact (congrArg (Option.bind · _) hunmark).trans (hw.trans (congrArg some heq))
  · obtain ⟨o, ho, hw⟩ := hat₃.counts a ha
    exact ⟨o, ho, hw.congr rfl (hGR' a)⟩
  · have h1 := hW.rc a
    have h2 := h.small a ha
    omega
  · by_cases haD : a ∈ D
    · exact hR.out a haD
    · have haR : a ∉ R.toFinset := fun haR => hR' (List.mem_toFinset.1 (hW.all ▸
        Finset.mem_union_left _ haR))
      have haN : a ∉ N := fun haN => hR' <| (hGR' a).1 <|
        Finset.mem_filter.2 ⟨Finset.mem_union_right _ haN, haD⟩
      rw [hR.kept a haD, htmp a (Finset.mem_sdiff.2 ⟨ha, haR⟩), refs_eq_zero]
      exact fun u hu hau => haN ((hN a).2 (((hN u).1 hu).tail hau))
  · rcases (hiff a).1 (List.mem_toFinset.2 ha) with haR | hag
    · exact h.sub a (List.mem_toFinset.1 haR)
    · exact reach_mem hL hd (mem_singleton_closure.1 hag.1)

/-- A search from what is swept already finds nothing. -/
lemma Between.again (h : Between ty kids L out s₀ R rc tmp s) (h0 : 0 ∉ L) (hd : d ∈ R) :
    ∃ s', collectFrom ty (n + 1) s R d = some ((s', R), 0) ∧
      Between ty kids L out s₀ R rc tmp s' := by
  have hdL := h.sub d hd
  have hd0 : d ≠ 0 := fun h => h0 (h ▸ hdL)
  have hat : CollectMark.At ty kids ∅ L rc s ⟨{a | a ∈ R}, tmp, []⟩ s :=
    ⟨fun a ha => absurd ha (Finset.notMem_empty a), Finset.empty_subset L, h.counts, .refl s⟩
  obtain ⟨s', hmark, hat'⟩ := markTc_again (n := n) hat hdL hd0 hd
  obtain ⟨o, ho, hw⟩ := hat'.counts d hdL
  refine ⟨s', ?_, h.same.trans (.of_same hat'.same), hat'.counts, h.small, h.clear, h.nodup, h.sub,
    h.counted, h.sealed⟩
  have hsweep : sweep ty (n + 1) (s', R) d = some ((s', R), 0) := by
    simp only [sweep, hd0, if_false, ho, Option.bind_some, hw.vis.2 hd, Bool.not_true,
      Bool.false_eq_true, hd, if_true]
  rw [collectFrom, hmark, Option.bind_some]
  exact hsweep

/-- **The loop of `gc_collect`** -/
lemma collectLoop_spec {q : List ℕ} (h : Between ty kids L out s₀ R rc tmp s)
    (hheap : Heap ty kids L s₀) (hdist : Distinct ty s₀) (h0 : 0 ∉ L)
    (hq : ∀ d ∈ q, d ∈ L ∧ d + 8 ∈ s₀.gcSet) (hn : L.card < n) :
    ∃ s' R' rc' tmp', collectLoop ty n q (s, R) = some (s', R') ∧
      Between ty kids L out s₀ R' rc' tmp' s' ∧ Rounds kids L out q R.toFinset R'.toFinset := by
  induction q generalizing s R rc tmp with
  | nil => exact ⟨s, R, rc, tmp, rfl, h, .nil _⟩
  | cons d q ih =>
    obtain ⟨hdL, hset⟩ := hq d List.mem_cons_self
    rw [← h.same.gcSet] at hset
    have hq' : ∀ d ∈ q, d ∈ L ∧ d + 8 ∈ s₀.gcSet := fun d hd => hq d (List.mem_cons_of_mem _ hd)
    simp only [collectLoop, if_pos hset]
    by_cases hd : d ∈ R
    · obtain ⟨m, rfl⟩ := Nat.exists_eq_succ_of_ne_zero (Nat.ne_of_gt (Nat.zero_lt_of_lt hn))
      obtain ⟨s₁, hf, h₁⟩ := h.again (n := m) h0 hd
      obtain ⟨s', R', rc', tmp', hf', h', hr⟩ := ih h₁ hq'
      refine ⟨s', R', rc', tmp', ?_, h', .skip (List.mem_toFinset.2 hd) hr⟩
      rw [hf]
      exact hf'
    · obtain ⟨s₁, R₁, rc₁, tmp₁, hf, h₁, hiff⟩ := h.search hheap hdist h0 hdL hd hn
      obtain ⟨s', R', rc', tmp', hf', h', hr⟩ := ih h₁ hq'
      refine ⟨s', R', rc', tmp', ?_, h', .search (fun h => hd (List.mem_toFinset.1 h)) hiff hr⟩
      rw [hf]
      exact hf'

/-! ### Exact counts -/

/-- The objects in `A` whose type is at `v` -/
def typeRefs (s : St) (A : Finset ℕ) (v : ℕ) : ℕ :=
  (A.filter fun a => (s.objs a).map Obj.type = some v).card

variable (ty) in
/-- A heap whose objects are those in `L`: each word that counts references is the number of
references from contents, from types, and from outside. The types are held from outside. -/
structure Exact (L : Finset ℕ) (ext : ℕ → ℕ) (s : St) : Prop where
  live : ∀ a, a ∈ L ↔ s.objs a ≠ none
  null : 0 ∉ L
  heap : Heap ty (kidsOf ty s) L s
  distinct : Distinct ty s
  types : ∀ p ∈ kinds ty, p.1 ∈ L ∧ 0 < ext p.1
  held : ∀ a o, s.objs a = some o → o.type ∈ L ∧ 0 < ext o.type
  count : ∀ a o, s.objs a = some o →
    o.refcount = refs (kidsOf ty s) L a + typeRefs s L a + ext a
  small : ∀ a o, s.objs a = some o → o.refcount < 2 ^ 31
  gcSet : s.gcSet.Nodup
  functions : ∀ x ∈ s.gcSet, 8 ≤ x ∧ x - 8 ∈ L
  num : s.gcNumAlloced = s.gcSet.length ∧ s.gcSet.length < wordMod

lemma Exact.closed {ext : ℕ → ℕ} (he : Exact ty L ext s) (a : ℕ) (ha : a ∈ L) (b : ℕ)
    (hb : b ∈ kidsOf ty s a) : b ∈ L := by
  obtain ⟨-, -, -, -, -, h⟩ := he.heap a ha
  exact h b hb

variable (ty) in
/-- The objects in `L'` are as they were, but for their counts, and the others are gone. -/
structure Remains (L L' : Finset ℕ) (s₀ s : St) : Prop where
  sub : L' ⊆ L
  gone : ∀ a ∉ L', s.objs a = none
  kept : ∀ a ∈ L', (s.objs a).map uncounted = (s₀.objs a).map uncounted
  trees : ∀ a ∈ L', ∀ x, IsRoot ty s₀ a x → s.trees x = s₀.trees x
  closed : ∀ a ∈ L', ∀ b ∈ kidsOf ty s₀ a, b ∈ L'

namespace Remains

variable {L' : Finset ℕ} {ext ext' : ℕ → ℕ}

lemma get (h : Remains ty L L' s₀ s) (ho : s.objs a = some o) :
    a ∈ L' ∧ ∃ o₀, s₀.objs a = some o₀ ∧ uncounted o = uncounted o₀ := by
  have ha : a ∈ L' := by
    by_contra ha
    exact Option.some_ne_none o (ho.symm.trans (h.gone a ha))
  have hk := h.kept a ha
  rw [ho, Option.map_some, eq_comm, Option.map_eq_some_iff] at hk
  obtain ⟨o₀, ho₀, heq⟩ := hk
  exact ⟨ha, o₀, ho₀, heq.symm⟩

lemma live (h : Remains ty L L' s₀ s) (he : Exact ty L ext s₀) : a ∈ L' ↔ s.objs a ≠ none := by
  refine ⟨fun ha hnone => ?_, fun hne => ?_⟩
  · have hk := h.kept a ha
    rw [hnone, Option.map_none, eq_comm, Option.map_eq_none_iff] at hk
    exact (he.live a).1 (h.sub ha) hk
  · by_contra ha
    exact hne (h.gone a ha)

lemma typeRefs_eq (h : Remains ty L L' s₀ s) : typeRefs s L' a = typeRefs s₀ L' a := by
  refine congrArg Finset.card (Finset.filter_congr fun b hb => ?_)
  have hk := congrArg (Option.map Obj.type) (h.kept b hb)
  rw [Option.map_map, Option.map_map] at hk
  exact iff_of_eq (congrArg (· = some a) hk)

section

variable (h : Remains ty L L' s₀ s) (htypes : ∀ p ∈ kinds ty, p.1 ∈ L')
include h htypes

lemma kind_eq {o₀ : Obj} (htype : o₀.type ∈ L') (heq : uncounted o = uncounted o₀) :
    kindOf ty s.toSt o = kindOf ty s₀.toSt o₀ :=
  kindOf_congr heq (h.kept _ htype) fun p hp => h.kept _ (htypes p hp)

lemma refs_eq {o₀ : Obj} (ha : a ∈ L') (ho₀ : s₀.objs a = some o₀) (htype : o₀.type ∈ L')
    (heq : uncounted o = uncounted o₀) : refsOf ty s o = refsOf ty s₀ o₀ :=
  refsOf_eq heq (h.kind_eq htypes htype heq) fun hk => treeAt_congr fun hx =>
    h.trees a ha _ ⟨hx, o₀, ho₀, hk, rfl⟩

variable (hheld : ∀ a o, s₀.objs a = some o → o.type ∈ L')
include hheld

lemma isRoot (hr : IsRoot ty s a x) : IsRoot ty s₀ a x := by
  obtain ⟨hx, o, ho, hk, hc⟩ := hr
  obtain ⟨ha, o₀, ho₀, heq⟩ := h.get ho
  exact ⟨hx, o₀, ho₀, (h.kind_eq htypes (hheld a o₀ ho₀) heq).symm.trans hk,
    (uncounted_iff.1 heq).2.2 ▸ hc⟩

lemma kids_eq (he : Exact ty L ext s₀) (ha : a ∈ L') : kidsOf ty s a = kidsOf ty s₀ a := by
  obtain ⟨o, ho⟩ := Option.ne_none_iff_exists'.1 ((h.live he).1 ha)
  obtain ⟨-, o₀, ho₀, heq⟩ := h.get ho
  rw [kidsOf, kidsOf, ho, ho₀, Option.bind_some, Option.bind_some,
    h.refs_eq htypes ha ho₀ (hheld a o₀ ho₀) heq]

end

variable (ext') in
/-- What remains has exact counts, when these are what remains of the references. -/
lemma exact (h : Remains ty L L' s₀ s) (he : Exact ty L ext s₀)
    (htypes : ∀ p ∈ kinds ty, p.1 ∈ L' ∧ 0 < ext' p.1)
    (hheld : ∀ a o, s₀.objs a = some o → o.type ∈ L' ∧ 0 < ext' o.type)
    (hcount : ∀ a ∈ L', ∀ o, s.objs a = some o →
      o.refcount = refs (kidsOf ty s₀) L' a + typeRefs s₀ L' a + ext' a)
    (hext : ∀ a, ext' a ≤ ext a) (hset : s.gcSet = s₀.gcSet.filter fun x => x - 8 ∈ L')
    (hnum : s.gcNumAlloced = s.gcSet.length) :
    Exact ty L' ext' s ∧ ∀ a ∈ L', kidsOf ty s a = kidsOf ty s₀ a := by
  have htypes' : ∀ p ∈ kinds ty, p.1 ∈ L' := fun p hp => (htypes p hp).1
  have hheld' : ∀ a o, s₀.objs a = some o → o.type ∈ L' := fun a o ho => (hheld a o ho).1
  have hkids (a : ℕ) (ha : a ∈ L') := h.kids_eq htypes' hheld' he ha
  refine ⟨⟨fun a => h.live he, fun h0 => he.null (h.sub h0), fun a ha => ?_, fun a b x ha hb =>
    he.distinct a b x (h.isRoot htypes' hheld' ha) (h.isRoot htypes' hheld' hb), htypes,
    fun a o ho => ?_, fun a o ho => ?_, fun a o ho => ?_, ?_, fun x hx => ?_, hnum, ?_⟩, hkids⟩
  · obtain ⟨o₀, l, ho₀, hl, hfilter, -⟩ := he.heap a (h.sub ha)
    obtain ⟨o, ho⟩ := Option.ne_none_iff_exists'.1 ((h.live he).1 ha)
    obtain ⟨-, o₁, ho₁, heq⟩ := h.get ho
    obtain rfl := Option.some.inj (ho₁.symm.trans ho₀)
    rw [hkids a ha]
    exact ⟨o, l, ho, (h.refs_eq htypes' ha ho₁ (hheld' a o₁ ho₁) heq).trans hl, hfilter,
      h.closed a ha⟩
  · obtain ⟨ha, o₀, ho₀, heq⟩ := h.get ho
    rw [(uncounted_iff.1 heq).1]
    exact hheld a o₀ ho₀
  · rw [hcount a (h.get ho).1 o ho, h.typeRefs_eq, refs_congr hkids]
  · obtain ⟨ha, o₀, ho₀, heq⟩ := h.get ho
    have h1 := he.small a o₀ ho₀
    have h2 := he.count a o₀ ho₀
    have h3 : refs (kidsOf ty s₀) L' a ≤ refs (kidsOf ty s₀) L a := refs_mono h.sub
    have h4 : typeRefs s₀ L' a ≤ typeRefs s₀ L a :=
      Finset.card_le_card (Finset.filter_subset_filter _ h.sub)
    have h5 := hext a
    rw [hcount a ha o ho]
    omega
  · rw [hset]
    exact he.gcSet.filter _
  · rw [hset, List.mem_filter, decide_eq_true_iff] at hx
    exact ⟨(he.functions x hx.1).1, hx.2⟩
  · rw [hset]
    exact (List.length_filter_le ..).trans_lt he.num.2

end Remains

/-! ### Freeing -/

variable {ext : ℕ → ℕ} {F : Finset ℕ} {setDelete : Store.St → ℕ → Option Store.St}
  {root : List ℕ → ℕ} {l refuse : List ℕ} {obj k : ℕ}

variable (ty) in
/-- The objects in `F` are freed, of those in `R`. -/
structure Freeing (L : Finset ℕ) (ext : ℕ → ℕ) (s₀ : St) (R F : Finset ℕ) (s : St) : Prop where
  sub : F ⊆ R
  freed : ∀ a, a ∉ L ∨ a ∈ F → s.objs a = none
  kept : ∀ a ∈ L, a ∉ F → (s.objs a).map uncounted = (s₀.objs a).map uncounted
  count : ∀ a ∈ L, a ∉ R → ∀ o, s.objs a = some o →
    o.refcount = refs (kidsOf ty s₀) (L \ R) a + typeRefs s₀ (L \ F) a + ext a
  next : s.next = s₀.next
  trees : ∀ x ≠ 0, (∀ a ∈ R, ¬ IsRoot ty s₀ a x) → s.trees x = s₀.trees x
  gcSet : s.gcSet = s₀.gcSet.filter fun x => x - 8 ∉ F
  num : s.gcNumAlloced = s.gcSet.length

lemma typeRefs_erase {A : Finset ℕ} (hobj : obj ∈ A) (ho : s.objs obj = some o) (a : ℕ) :
    typeRefs s A a = typeRefs s (A.erase obj) a + if o.type = a then 1 else 0 := by
  unfold typeRefs
  rw [Finset.filter_erase]
  split_ifs with h
  · rw [Finset.card_erase_add_one]
    exact Finset.mem_filter.2 ⟨hobj, by rw [ho, Option.map_some, h]⟩
  · rw [Finset.erase_eq_of_notMem, Nat.add_zero]
    exact fun h' => h (Option.some.inj (by rw [← (Finset.mem_filter.1 h').2, ho, Option.map_some]))

/-- A registered function is taken out, and the registered functions are counted. -/
lemma unregister_eq (hnum : s.gcNumAlloced = s.gcSet.length) (hlen : s.gcSet.length < wordMod) :
    (if x ∈ s.gcSet then
        { s with gcSet := s.gcSet.erase x, gcNumAlloced := wsub s.gcNumAlloced 1 }
      else s) =
      { s with gcSet := s.gcSet.erase x, gcNumAlloced := (s.gcSet.erase x).length } := by
  split_ifs with hx
  · have hpos := List.length_pos_of_mem hx
    rw [hnum, wsub_eq hpos hlen, List.length_erase_of_mem hx]
  · rw [List.erase_of_not_mem hx, ← hnum]

/-- A reference that is not the last one is dropped. -/
lemma objectDelete_kept {s : Store.St} (h0 : obj ≠ 0) (ho : s.objs obj = some o)
    (hrc : wsub o.refcount 1 ≠ 0) : objectDelete ty setDelete (n + 1) s obj =
      some (s.put obj { o with refcount := wsub o.refcount 1 }) := by
  change (if obj = 0 then some s else (s.objs obj).bind fun o =>
    if wsub o.refcount 1 ≠ 0 then some (s.put obj { o with refcount := wsub o.refcount 1 })
    else _) = _
  rw [if_neg h0, ho, Option.bind_some, if_pos hrc]

variable (ty setDelete) in
/-- What `release` does to an object whose type stays. -/
lemma release_spec (n : ℕ) (hnum : s.gcNumAlloced = s.gcSet.length)
    (hlen : s.gcSet.length < wordMod) {t : Obj} (ho : s.objs obj = some o)
    (ht : s.objs o.type = some t) (hne : obj ≠ o.type) (h0 : o.type ≠ 0)
    (hrc : wsub t.refcount 1 ≠ 0) :
    ∃ s', release ty setDelete (n + 1) s obj = some s' ∧ s'.objs obj = none ∧
      s'.objs o.type = some { t with refcount := wsub t.refcount 1 } ∧
      (∀ a, a ≠ obj → a ≠ o.type → s'.objs a = s.objs a) ∧ s'.next = s.next ∧
      s'.trees = s.trees ∧ s'.gcSet = s.gcSet.erase (obj + 8) ∧
      s'.gcNumAlloced = s'.gcSet.length := by
  have hdelete : objectDelete ty setDelete (n + 1) s.toSt o.type =
      some (s.toSt.put o.type { t with refcount := wsub t.refcount 1 }) :=
    objectDelete_kept h0 ht hrc
  have hfree : (s.toSt.put o.type { t with refcount := wsub t.refcount 1 }).objs obj = some o :=
    (Function.update_of_ne hne ..).trans ho
  refine ⟨{ s with
      objs := Function.update (Function.update s.objs o.type
        (some { t with refcount := wsub t.refcount 1 })) obj none
      gcSet := s.gcSet.erase (obj + 8)
      gcNumAlloced := (s.gcSet.erase (obj + 8)).length },
    ?_, Function.update_self .., ?_, fun a ha hat => ?_, rfl, rfl, rfl, rfl⟩
  · simp only [Collect.release, unregister_eq hnum hlen, ho, Option.bind_some, hdelete,
      Store.St.free, hfree, Option.map_some]
    rfl
  · exact (Function.update_of_ne (Ne.symm hne) ..).trans (Function.update_self ..)
  · exact (Function.update_of_ne ha ..).trans (Function.update_of_ne hat ..)

variable (setDelete) in
/-- **One object is freed**, and the reference to its type is dropped. -/
lemma Freeing.release (n : ℕ) (he : Exact ty L ext s₀) {R : Finset ℕ}
    (h : Freeing ty L ext s₀ R F s) (hR : ∀ a ∈ R, a ∈ L ∧ ext a = 0) (hobj : obj ∈ R)
    (hF : obj ∉ F) :
    ∃ s', release ty setDelete (n + 1) s obj = some s' ∧
      Freeing ty L ext s₀ R (insert obj F) s' := by
  have hobjL := (hR obj hobj).1
  obtain ⟨o₀, ho₀⟩ := Option.ne_none_iff_exists'.1 ((he.live obj).1 hobjL)
  obtain ⟨htL, htpos⟩ := he.held obj o₀ ho₀
  have htR : o₀.type ∉ R := fun h => (hR _ h).2.not_gt htpos
  have htF : o₀.type ∉ F := fun h' => htR (h.sub h')
  have hne : obj ≠ o₀.type := fun h => htR (h ▸ hobj)
  have hget {a : ℕ} {o' : Obj} (ha : a ∈ L) (haF : a ∉ F) (ho' : s₀.objs a = some o') :
      ∃ o, s.objs a = some o ∧ uncounted o = uncounted o' := by
    have hk := h.kept a ha haF
    rwa [ho', Option.map_some, Option.map_eq_some_iff] at hk
  obtain ⟨o, ho, heq⟩ := hget hobjL hF ho₀
  obtain ⟨t₀, ht₀⟩ := Option.ne_none_iff_exists'.1 ((he.live _).1 htL)
  obtain ⟨t, ht, heqt⟩ := hget htL htF ht₀
  have htype : o.type = o₀.type := (uncounted_iff.1 heq).1
  -- the reference from the object to its type is one of those that are counted
  have hmem : obj ∈ L \ F := Finset.mem_sdiff.2 ⟨hobjL, hF⟩
  have herase (a : ℕ) := typeRefs_erase (s := s₀) hmem ho₀ a
  have hcount := h.count _ htL htR t ht
  have hpos := herase o₀.type
  rw [if_pos rfl] at hpos
  have hsmall : t.refcount < wordMod := by
    have h1 := he.small _ t₀ ht₀
    rw [he.count _ t₀ ht₀] at h1
    have h2 : refs (kidsOf ty s₀) (L \ R) o₀.type ≤ refs (kidsOf ty s₀) L o₀.type :=
      refs_mono Finset.sdiff_subset
    have h3 : typeRefs s₀ (L \ F) o₀.type ≤ typeRefs s₀ L o₀.type :=
      Finset.card_le_card (Finset.filter_subset_filter _ Finset.sdiff_subset)
    rw [hcount, wordMod]
    omega
  have hpred : wsub t.refcount 1 = t.refcount - 1 := wsub_eq (by omega) hsmall
  have hset : s.gcSet.length < wordMod := by
    rw [h.gcSet]
    exact (List.length_filter_le ..).trans_lt he.num.2
  have h0 : o.type ≠ 0 := fun h => he.null (h ▸ htype.symm ▸ htL)
  obtain ⟨s', hs', hself, htype', hrest, hnext, htrees, hgc, hnum⟩ :=
    release_spec ty setDelete n h.num hset ho (htype ▸ ht)
      (htype ▸ hne) h0 (by omega)
  rw [htype] at htype' hrest
  refine ⟨s', hs', Finset.insert_subset hobj h.sub, fun a ha => ?_, fun a ha haF => ?_,
    fun a ha haR o' ho' => ?_, hnext.trans h.next, fun x hx hR => ?_, ?_, hnum⟩
  · by_cases hao : a = obj
    · exact hao ▸ hself
    · have hnone := h.freed a (ha.imp_right fun ha => (Finset.mem_insert.1 ha).resolve_left hao)
      have hat : a ≠ o₀.type := by
        rintro rfl
        exact absurd (ht.symm.trans hnone) (Option.some_ne_none t)
      exact (hrest a hao hat).trans hnone
  · rw [Finset.mem_insert, not_or] at haF
    by_cases hat : a = o₀.type
    · subst hat
      rw [htype', ht₀, Option.map_some, Option.map_some, ← heqt, uncounted, uncounted]
    · rw [hrest a haF.1 hat]
      exact h.kept a ha haF.2
  · have hao : a ≠ obj := fun h => haR (h ▸ hobj)
    rw [Finset.sdiff_insert]
    by_cases hat : a = o₀.type
    · subst hat
      obtain rfl := Option.some.inj (htype'.symm.trans ho')
      change wsub t.refcount 1 = _
      omega
    · have h1 := h.count a ha haR o' ((hrest a hao hat).symm.trans ho')
      have h2 := herase a
      rw [if_neg (Ne.symm hat)] at h2
      omega
  · rw [htrees]
    exact h.trees x hx hR
  · have hnodup : s.gcSet.Nodup := h.gcSet ▸ he.gcSet.filter _
    rw [hgc, hnodup.erase_eq_filter, h.gcSet, List.filter_filter]
    refine List.filter_congr fun x hx => ?_
    have h8 := (he.functions x hx).1
    have hiff : x = obj + 8 ↔ x - 8 = obj := by omega
    simp [bne, beq_eq_decide, hiff]

lemma rootOf_mem (h : l ≠ []) : rootOf root l ∈ l := by
  have hlt : root l % l.length < l.length := Nat.mod_lt _ (List.length_pos_of_ne_nil h)
  rw [rootOf, List.getD_eq_getElem _ _ hlt]
  exact List.getElem_mem hlt

variable (setDelete root) in
/-- **The loop that empties the tree of what was swept** -/
lemma Freeing.loop (n : ℕ) (he : Exact ty L ext s₀) {R : Finset ℕ} (hR : ∀ a ∈ R, a ∈ L ∧ ext a = 0)
    (h : Freeing ty L ext s₀ R F s) (hnodup : l.Nodup) (hl : ∀ a, a ∈ l ↔ a ∈ R ∧ a ∉ F) :
    ∃ s', releaseLoop ty setDelete root (n + 1) l.length l s = some s' ∧
      Freeing ty L ext s₀ R R s' := by
  generalize hk : l.length = k
  induction k generalizing l F s with
  | zero =>
    have hFR : F = R := h.sub.antisymm fun a ha => by
      by_contra haF
      have := (hl a).2 ⟨ha, haF⟩
      rw [List.eq_nil_of_length_eq_zero hk] at this
      exact absurd this List.not_mem_nil
    exact ⟨s, rfl, hFR ▸ h⟩
  | succ k ih =>
    have hroot : rootOf root l ∈ l := rootOf_mem (by rintro rfl; simp at hk)
    obtain ⟨hrR, hrF⟩ := (hl _).1 hroot
    obtain ⟨s₁, hs₁, h₁⟩ := h.release setDelete n he hR hrR hrF
    obtain ⟨s', hs', h'⟩ := ih h₁ (hnodup.erase _) (fun a => by
      rw [hnodup.mem_erase_iff, hl, Finset.mem_insert, not_or]
      tauto) (by rw [List.length_erase_of_mem hroot, hk, Nat.add_sub_cancel])
    refine ⟨s', ?_, h'⟩
    rw [releaseLoop, hs₁]
    exact hs'

/-- **What is left** when all of `R` is freed -/
lemma Freeing.exact (he : Exact ty L ext s₀) {R : Finset ℕ} (hR : ∀ a ∈ R, a ∈ L ∧ ext a = 0)
    (hs : Sealed (kidsOf ty s₀) L R) (h : Freeing ty L ext s₀ R R s) :
    Exact ty (L \ R) ext s ∧ ∀ a ∈ L \ R, kidsOf ty s a = kidsOf ty s₀ a := by
  have hout (a : ℕ) (ha : a ∈ L ∧ 0 < ext a) : a ∈ L \ R ∧ 0 < ext a :=
    ⟨Finset.mem_sdiff.2 ⟨ha.1, fun haR => (hR a haR).2.not_gt ha.2⟩, ha.2⟩
  have hkept (a : ℕ) (ha : a ∈ L \ R) : (s.objs a).map uncounted = (s₀.objs a).map uncounted :=
    h.kept a (Finset.mem_sdiff.1 ha).1 (Finset.mem_sdiff.1 ha).2
  have hrest : Remains ty L (L \ R) s₀ s := by
    refine ⟨Finset.sdiff_subset, fun a ha => h.freed a ?_, hkept, fun a ha x hx =>
      h.trees x hx.1 fun b hb hr => ?_, fun a ha b hb => ?_⟩
    · rwa [Finset.mem_sdiff, not_and_or, not_not] at ha
    · exact (Finset.mem_sdiff.1 ha).2 (he.distinct a b x hx hr ▸ hb)
    · exact Finset.mem_sdiff.2 ⟨he.closed a (Finset.mem_sdiff.1 ha).1 b hb,
        hs a (Finset.mem_sdiff.1 ha).1 (Finset.mem_sdiff.1 ha).2 b hb⟩
  refine hrest.exact _ he (fun p hp => hout _ (he.types p hp))
    (fun a o ho => hout _ (he.held a o ho))
    (fun a ha o ho => h.count a (Finset.mem_sdiff.1 ha).1 (Finset.mem_sdiff.1 ha).2 o ho)
    (fun a => le_rfl) ?_ h.num
  rw [h.gcSet]
  exact List.filter_congr fun x hx => by simp [(he.functions x hx).2]

/-! ### Collecting -/

/-- The references to `a` that are not from contents -/
def outer (s : St) (L : Finset ℕ) (ext : ℕ → ℕ) (a : ℕ) : ℕ := typeRefs s L a + ext a

variable (ty) in
/-- What is left when the objects that are not in `L'` are freed: the others are as they were, with
exact counts again. -/
structure Left (ext : ℕ → ℕ) (s : St) (L' : Finset ℕ) (s' : St) : Prop where
  exact : Exact ty L' ext s'
  kept : ∀ a ∈ L', (s'.objs a).map uncounted = (s.objs a).map uncounted
  kids : ∀ a ∈ L', kidsOf ty s' a = kidsOf ty s a
  gcSet : s'.gcSet = s.gcSet.filter fun x => x - 8 ∈ L'
  next : s'.next = s.next

/-- The counts at the start of a collection -/
lemma Exact.between (h : Exact ty L ext s) : Between ty (kidsOf ty s) L (outer s L ext) s []
    (fun a => refs (kidsOf ty s) L a + outer s L ext a) (fun _ => 0) s := by
  have hcount (a : ℕ) (ha : a ∈ L) : ∃ o, s.objs a = some o ∧
      o.refcount = refs (kidsOf ty s) L a + outer s L ext a ∧ o.refcount < 2 ^ 31 := by
    obtain ⟨o, ho⟩ := Option.ne_none_iff_exists'.1 ((h.live a).1 ha)
    exact ⟨o, ho, by rw [h.count a o ho, outer, Nat.add_assoc], h.small a o ho⟩
  refine ⟨.of_same (.refl s), fun a ha => ?_, fun a ha => ?_, fun _ _ _ => rfl, List.nodup_nil,
    by simp, fun v _ => by simp, by simp [Sealed]⟩
  · obtain ⟨o, ho, hrc, hlt⟩ := hcount a ha
    exact ⟨o, ho, hrc ▸ (word_clear (hlt.trans (by decide))).congr rfl (by simp)⟩
  · obtain ⟨o, ho, hrc, hlt⟩ := hcount a ha
    exact hrc ▸ hlt

variable (setDelete root) in
/-- **Freeing what was swept** -/
lemma Between.release (n : ℕ) (he : Exact ty L ext s)
    (h : Between ty (kidsOf ty s) L (outer s L ext) s R rc tmp s')
    (hR : ∀ a ∈ R, outer s L ext a = 0) : ∃ s'',
      releaseLoop ty setDelete root (n + 1) R.length R s' = some s'' ∧
      Left ty ext s (L \ R.toFinset) s'' := by
  have hout : ∀ a ∈ R.toFinset, a ∈ L ∧ ext a = 0 := fun a ha => by
    have haR := List.mem_toFinset.1 ha
    exact ⟨h.sub a haR, Nat.eq_zero_of_add_eq_zero_left (hR a haR)⟩
  have hstart : Freeing ty L ext s R.toFinset ∅ s' := by
    refine ⟨Finset.empty_subset _, fun a ha => ?_, fun a _ _ => h.same.objs a,
      fun a ha haR o ho => ?_, h.same.next, fun x hx hno => ?_, ?_, ?_⟩
    · have hnone : s.objs a = none := by
        by_contra hne
        exact ha.elim (fun ha => ha ((he.live a).2 hne)) (Finset.notMem_empty a)
      have hmap := h.same.objs a
      rwa [hnone, Option.map_none, Option.map_eq_none_iff] at hmap
    · obtain ⟨o', ho', hw⟩ := h.counts a ha
      obtain rfl := Option.some.inj (ho.symm.trans ho')
      have haR' : a ∉ R := fun h => haR (List.mem_toFinset.2 h)
      rw [hw.eq_rc (by rw [h.clear a ha haR']; rfl) haR',
        h.counted a (Finset.mem_sdiff.2 ⟨ha, haR⟩),
        outer, Finset.sdiff_empty, Nat.add_assoc]
    · exact h.same.trees x hx fun a ha => hno a (List.mem_toFinset.2 ha)
    · simp [h.same.gcSet]
    · rw [h.same.gcNumAlloced, h.same.gcSet, he.num.1]
  obtain ⟨s'', hs'', h'⟩ := hstart.loop setDelete root n he hout
    h.nodup (by simp)
  obtain ⟨hexact, hkids⟩ := h'.exact he hout h.sealed
  refine ⟨s'', hs'', hexact, fun a ha => h'.kept a (Finset.mem_sdiff.1 ha).1
    (Finset.mem_sdiff.1 ha).2, hkids, ?_, h'.next⟩
  rw [h'.gcSet]
  exact List.filter_congr fun x hx => by simp [(he.functions x hx).2]

/-- `_gc_collect` pushes the registered functions. -/
lemma gcRoots_spec (he : Exact ty L ext s) {q : List ℕ} (hl : ∀ x ∈ l, x ∈ s.gcSet) :
    ∃ q', gcRoots s l q = some q' ∧ ∀ f, f ∈ q' ↔ f ∈ q ∨ f + 8 ∈ l := by
  induction l generalizing q with
  | nil => exact ⟨q, rfl, by simp⟩
  | cons x l ih =>
    obtain ⟨h8, hL⟩ := he.functions x (hl x List.mem_cons_self)
    obtain ⟨o, ho⟩ := Option.ne_none_iff_exists'.1 ((he.live _).1 hL)
    have htype : o.type ≠ 0 := fun h => he.null (h ▸ (he.held _ o ho).1)
    obtain ⟨q', hq', hmem⟩ := ih (q := (x - 8) :: q) fun y hy => hl y (List.mem_cons_of_mem _ hy)
    refine ⟨q', by rw [gcRoots, ho, Option.bind_some, if_pos htype, hq'], fun f => ?_⟩
    have hiff : f = x - 8 ↔ f + 8 = x := by omega
    rw [hmem, List.mem_cons, List.mem_cons, hiff]
    tauto

/-- A collection frees the garbage. -/
lemma gcCollect_frees (setDelete : Store.St → ℕ → Option Store.St) (root : List ℕ → ℕ)
    (he : Exact ty L ext s) (hn : L.card < n) :
    ∃ s' R, gcCollect ty setDelete root n s = some s' ∧ Left ty ext s (L \ R) s' ∧
      ∀ a, a ∈ R ↔ a ∈ garbage (kidsOf ty s) L (outer s L ext) {f | f + 8 ∈ s.gcSet} := by
  have hL : ∀ a ∈ L, ∀ b ∈ kidsOf ty s a, b ∈ L := he.closed
  obtain ⟨q, hq, hmem⟩ := gcRoots_spec (l := s.gcSet) (q := []) he fun x hx => hx
  have hroots : {f | f ∈ q} = {f | f + 8 ∈ s.gcSet} := Set.ext fun f => by simp [hmem]
  have hqL : ∀ f ∈ q, f ∈ L ∧ f + 8 ∈ s.gcSet := fun f hf => by
    have hset : f + 8 ∈ s.gcSet := by simpa using (hmem f).1 hf
    exact ⟨by simpa using (he.functions _ hset).2, hset⟩
  obtain ⟨s₁, R, rc, tmp, hloop, h₁, hrounds⟩ :=
    collectLoop_spec he.between he.heap he.distinct he.null hqL hn
  have hiff (a : ℕ) : a ∈ R.toFinset ↔
      a ∈ garbage (kidsOf ty s) L (outer s L ext) {f | f + 8 ∈ s.gcSet} := by
    rw [← hroots]
    exact rounds_garbage hL (fun f hf => (hqL f hf).1) hrounds
  obtain ⟨m, rfl⟩ := Nat.exists_eq_succ_of_ne_zero (Nat.ne_of_gt (Nat.zero_lt_of_lt hn))
  obtain ⟨s', hs', hleft⟩ := h₁.release setDelete root m he fun a ha =>
    Nat.eq_zero_of_not_pos fun hpos => not_held ((hiff a).1 (List.mem_toFinset.2 ha)) (.inl hpos)
  refine ⟨s', R.toFinset, ?_, hleft, hiff⟩
  rw [gcCollect, hq, Option.bind_some, hloop]
  exact hs'

/-- **`gc_collect`** frees exactly the objects that are reached from a registered function and not
from any object that is held from elsewhere. -/
theorem gcCollect_exact (setDelete : Store.St → ℕ → Option Store.St) (root : List ℕ → ℕ)
    (he : Exact ty L ext s) (hn : L.card < n) :
    ∃ s' L', gcCollect ty setDelete root n s = some s' ∧ Left ty ext s L' s' ∧
      ∀ a, a ∈ L' ↔ a ∈ L ∧
        a ∉ garbage (kidsOf ty s) L (outer s L ext) {f | f + 8 ∈ s.gcSet} := by
  obtain ⟨s', R, hs', hleft, hiff⟩ := gcCollect_frees setDelete root he hn
  exact ⟨s', L \ R, hs', hleft, fun a => by rw [Finset.mem_sdiff, hiff]⟩

/-- Deleting a function frees the garbage that is reached from it, and returns how much that is. -/
lemma gcDelObj_frees (setDelete : Store.St → ℕ → Option Store.St) (root : List ℕ → ℕ)
    (he : Exact ty L ext s) (hn : L.card < n) (hd : d + 8 ∈ s.gcSet) :
    ∃ s' R, gcDelObj ty setDelete root n s d = some (s', ∑ a ∈ R, weight ty s a) ∧ R ⊆ L ∧
      Left ty ext s (L \ R) s' ∧
      ∀ a, a ∈ R ↔ a ∈ garbage (kidsOf ty s) L (outer s L ext) {d} := by
  have hdL : d ∈ L := by simpa using (he.functions _ hd).2
  obtain ⟨s₁, R, rc, tmp, hfrom, h₁, hiff⟩ := he.between.search he.heap he.distinct he.null hdL
    List.not_mem_nil hn
  rw [List.toFinset_nil, Finset.sdiff_empty] at hfrom hiff
  simp only [Finset.notMem_empty, false_or] at hiff
  obtain ⟨m, rfl⟩ := Nat.exists_eq_succ_of_ne_zero (Nat.ne_of_gt (Nat.zero_lt_of_lt hn))
  obtain ⟨s', hs', hleft⟩ := h₁.release setDelete root m he fun a ha =>
    Nat.eq_zero_of_not_pos fun hpos => not_held ((hiff a).1 (List.mem_toFinset.2 ha)) (.inl hpos)
  refine ⟨s', R.toFinset, ?_, fun a ha => h₁.sub a (List.mem_toFinset.1 ha), hleft, hiff⟩
  rw [gcDelObj, if_pos hd, hfrom, Option.bind_some]
  exact congrArg (Option.map _) hs'

/-- **`gc_del_obj`** frees exactly the objects that are reached from the function and not from any
object that is held from elsewhere; it returns 0 when there are none. -/
theorem gcDelObj_exact (setDelete : Store.St → ℕ → Option Store.St) (root : List ℕ → ℕ)
    (he : Exact ty L ext s) (hn : L.card < n) (hd : d + 8 ∈ s.gcSet) :
    ∃ s' L', gcDelObj ty setDelete root n s d = some (s', ∑ a ∈ L \ L', weight ty s a) ∧
      Left ty ext s L' s' ∧
      ∀ a, a ∈ L' ↔ a ∈ L ∧ a ∉ garbage (kidsOf ty s) L (outer s L ext) {d} := by
  obtain ⟨s', R, hs', hsub, hleft, hiff⟩ := gcDelObj_frees setDelete root he hn hd
  refine ⟨s', L \ R, ?_, hleft, fun a => by rw [Finset.mem_sdiff, hiff]⟩
  rw [Finset.sdiff_sdiff_eq_self hsub]
  exact hs'

/-! ### A small heap -/

/-- The objects of a table -/
def ofTable (t : List (ℕ × Obj)) (a : ℕ) : Option Obj := (t.find? (·.1 == a)).map Prod.snd

lemma mem_of_ofTable {t : List (ℕ × Obj)} (h : ofTable t a = some o) : (a, o) ∈ t := by
  obtain ⟨p, hp, rfl⟩ := Option.map_eq_some_iff.1 h
  have hmem := List.mem_of_find?_eq_some hp
  have ha : p.1 = a := by simpa using List.find?_some hp
  rwa [← ha]

lemma ofTable_ne_none {t : List (ℕ × Obj)} :
    a ∈ (t.map Prod.fst).toFinset ↔ ofTable t a ≠ none := by
  rw [ofTable, Ne, Option.map_eq_none_iff, List.find?_eq_none]
  simp

/-- The heap of a table has exact counts when this can be seen object by object. -/
lemma exact_ofTable {t : List (ℕ × Obj)} (hs : s.objs = ofTable t)
    (h0 : 0 ∉ (t.map Prod.fst).toFinset)
    (hread : ∀ p ∈ t, refsOf ty s p.2 ≠ none)
    (hkids : ∀ p ∈ t, ∀ b ∈ kidsOf ty s p.1, b ∈ (t.map Prod.fst).toFinset)
    (hroots : ∀ p ∈ t, ∀ q ∈ t, kindOf ty s.toSt p.2 = some .tree →
      kindOf ty s.toSt q.2 = some .tree → p.2.contents 0 = q.2.contents 0 → p.1 = q.1)
    (htypes : ∀ p ∈ kinds ty, p.1 ∈ (t.map Prod.fst).toFinset ∧ 0 < ext p.1)
    (hheld : ∀ p ∈ t, p.2.type ∈ (t.map Prod.fst).toFinset ∧ 0 < ext p.2.type)
    (hcount : ∀ p ∈ t, p.2.refcount = refs (kidsOf ty s) (t.map Prod.fst).toFinset p.1 +
      typeRefs s (t.map Prod.fst).toFinset p.1 + ext p.1)
    (hsmall : ∀ p ∈ t, p.2.refcount < 2 ^ 31) (hset : s.gcSet.Nodup)
    (hfunctions : ∀ x ∈ s.gcSet, 8 ≤ x ∧ x - 8 ∈ (t.map Prod.fst).toFinset)
    (hnum : s.gcNumAlloced = s.gcSet.length ∧ s.gcSet.length < wordMod) :
    Exact ty (t.map Prod.fst).toFinset ext s := by
  have hmem {a : ℕ} {o : Obj} (ho : s.objs a = some o) : (a, o) ∈ t := mem_of_ofTable (hs ▸ ho)
  refine ⟨fun a => hs ▸ ofTable_ne_none, h0, fun a ha => ?_, fun a b x ha hb => ?_, htypes,
    fun a o ho => hheld (a, o) (hmem ho), fun a o ho => hcount (a, o) (hmem ho),
    fun a o ho => hsmall (a, o) (hmem ho), hset, hfunctions, hnum⟩
  · obtain ⟨o, ho⟩ := Option.ne_none_iff_exists'.1 (ofTable_ne_none.1 ha)
    rw [← hs] at ho
    obtain ⟨l, hl⟩ := Option.ne_none_iff_exists'.1 (hread (a, o) (hmem ho))
    refine ⟨o, l, ho, hl, ?_, hkids (a, o) (hmem ho)⟩
    rw [kidsOf, ho, Option.bind_some, hl, Option.getD_some]
  · obtain ⟨-, o, ho, hk, rfl⟩ := ha
    obtain ⟨-, o', ho', hk', hx⟩ := hb
    exact hroots (a, o) (hmem ho) (b, o') (hmem ho') hk hk' hx.symm

/-- Eight types, a function and a pair that refer to each other, and a function that is held; the
pair and the other function refer to one number. -/
def twoFunctions : List (ℕ × Obj) :=
  [(8, .ofWords 9 8 [1]), (16, .ofWords 2 8 [2]), (24, .ofWords 1 8 [3]), (32, .ofWords 1 8 [4]),
    (40, .ofWords 1 8 [5]), (48, .ofWords 3 8 [6]), (56, .ofWords 2 8 [7]), (64, .ofWords 1 8 [8]),
    (72, .ofWords 1 48 [80, 0, 0]), (80, .ofWords 1 56 [72, 88]), (88, .ofWords 2 16 [5, 0]),
    (96, .ofWords 1 48 [88, 0, 0])]

/-- Where the types are -/
def eightTypes : Types := ⟨8, 16, 24, 32, 40, 48, 56, 64⟩

/-- Both functions are registered. -/
def twoRegistered : St := ⟨⟨ofTable twoFunctions, 104⟩, fun _ => none, [80, 104], 2⟩

/-- The types and the second function are held. -/
def secondHeld (a : ℕ) : ℕ := if a ≤ 64 ∨ a = 96 then 1 else 0

lemma twoRegistered_exact : Exact eightTypes ((twoFunctions.map Prod.fst).toFinset) secondHeld
    twoRegistered :=
  exact_ofTable rfl (by decide) (by decide) (by decide) (by decide) (by decide) (by decide)
    (by decide) (by decide) (by decide) (by decide) (by decide)

/-- Both functions are searched from. -/
theorem gcCollect_exact_two : ∃ s' L',
    gcCollect eightTypes (fun s _ => some s) (fun _ => 0) 13 twoRegistered = some s' ∧
      Left eightTypes secondHeld twoRegistered L' s' ∧
      ∀ a, a ∈ L' ↔ a ∈ (twoFunctions.map Prod.fst).toFinset ∧
        a ∉ garbage (kidsOf eightTypes twoRegistered) (twoFunctions.map Prod.fst).toFinset
          (outer twoRegistered (twoFunctions.map Prod.fst).toFinset secondHeld)
          {f | f + 8 ∈ twoRegistered.gcSet} :=
  gcCollect_exact _ _ twoRegistered_exact (by decide)

example : (gcCollect eightTypes (fun s _ => some s) (fun _ => 0) 13 twoRegistered).map
    (fun s => [72, 80, 88, 96].map fun a => (s.objs a).map Obj.refcount) =
      some [none, none, some 1, some 1] := by decide

/-- The first function is deleted. -/
theorem gcDelObj_exact_two : ∃ s' L',
    gcDelObj eightTypes (fun s _ => some s) (fun _ => 0) 13 twoRegistered 72 =
      some (s', ∑ a ∈ (twoFunctions.map Prod.fst).toFinset \ L',
        weight eightTypes twoRegistered a) ∧
      Left eightTypes secondHeld twoRegistered L' s' ∧
      ∀ a, a ∈ L' ↔ a ∈ (twoFunctions.map Prod.fst).toFinset ∧
        a ∉ garbage (kidsOf eightTypes twoRegistered) (twoFunctions.map Prod.fst).toFinset
          (outer twoRegistered (twoFunctions.map Prod.fst).toFinset secondHeld) {72} :=
  gcDelObj_exact _ _ twoRegistered_exact (by decide) (by decide)

end LispMachine.CollectExact
