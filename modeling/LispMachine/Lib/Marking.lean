import Mathlib.Algebra.Order.BigOperators.Group.Finset
import Mathlib.Data.Finset.Dedup
import Mathlib.Logic.Relation

/-!
Garbage in a graph of counted references, and its search by trial deletion.

From an element, everything that it reaches is visited and every reference met on the way is
counted. An element with more references than were met is held from elsewhere: whatever it reaches
is unvisited. What is left is taken away, with the references that it holds.
-/

namespace LispMachine.Lib.Marking

open Relation

/-- A chain of references. -/
abbrev Reach {V : Type*} (kids : V → List V) : V → V → Prop := ReflTransGen fun u v => v ∈ kids u

variable {V : Type*} [DecidableEq V] {kids : V → List V}

/-- The references to `v` that the elements of `N` hold. -/
def refs (kids : V → List V) (N : Finset V) (v : V) : ℕ := ∑ u ∈ N, (kids u).count v

section Refs

variable {N N' : Finset V} {u v : V}

@[simp] lemma refs_empty : refs kids ∅ v = 0 := rfl

lemma refs_insert (h : u ∉ N) : refs kids (insert u N) v = (kids u).count v + refs kids N v :=
  Finset.sum_insert h

lemma refs_union (h : Disjoint N N') : refs kids (N ∪ N') v = refs kids N v + refs kids N' v :=
  Finset.sum_union h

variable (kids) in
lemma refs_sdiff {N₁ N₂ : Finset V} (h : N₁ ⊆ N₂) (v : V) :
    refs kids (N₂ \ N₁) v + refs kids N₁ v = refs kids N₂ v :=
  Finset.sum_sdiff h

lemma refs_mono (h : N ⊆ N') : refs kids N v ≤ refs kids N' v :=
  Finset.sum_le_sum_of_subset h

lemma refs_congr {kids' : V → List V} (h : ∀ u ∈ N, kids u = kids' u) :
    refs kids N v = refs kids' N v :=
  Finset.sum_congr rfl fun u hu => by rw [h u hu]

lemma refs_eq_zero : refs kids N v = 0 ↔ ∀ u ∈ N, v ∉ kids u := by
  simp [refs, Finset.sum_eq_zero_iff, List.count_eq_zero]

lemma refs_pos : 0 < refs kids N v ↔ ∃ u ∈ N, v ∈ kids u := by
  simp [Nat.pos_iff_ne_zero, refs_eq_zero]

end Refs

/-! ### Visiting -/

/-- What is visited, how often it was met, and what is left to look at. -/
structure Marks (V : Type*) where
  vis : Set V
  tmp : V → ℕ
  work : List V

variable {M M' M₁ : Marks V} {N N₁ N₂ : Finset V} {l l₁ l₂ : List V} {v : V}

/-- The elements of `l` are met one after the other, and `N` is visited for the first time. -/
structure Visited (kids : V → List V) (l : List V) (M M' : Marks V) (N : Finset V) : Prop where
  fresh : ∀ u ∈ N, u ∉ M.vis
  vis : M'.vis = M.vis ∪ N
  work : ∃ q, M'.work = q ++ M.work ∧ ∀ u, u ∈ q ↔ u ∈ N
  tmp : ∀ u, M'.tmp u = (if u ∈ N then 0 else M.tmp u) + l.count u + refs kids N u
  closed : ∀ u ∈ N, ∀ w ∈ kids u, w ∈ M'.vis
  met : ∀ u ∈ l, u ∈ M'.vis
  reach : ∀ u ∈ N, ∃ w ∈ l, Reach kids w u

namespace Visited

/-- No reference from what was visited first leads to what is visited later. -/
lemma later (h : Visited kids l M M' N) {u : V} (hu : u ∉ M'.vis) :
    u ∉ N ∧ l.count u = 0 ∧ refs kids N u = 0 := by
  refine ⟨fun hN => hu ?_, List.count_eq_zero.2 fun hl => hu (h.met u hl),
    refs_eq_zero.2 fun w hw hwu => hu (h.closed w hw u hwu)⟩
  rw [h.vis]
  exact .inr hN

lemma nil (M : Marks V) : Visited kids [] M M ∅ :=
  ⟨by simp, by simp, ⟨[], by simp⟩, by simp, by simp, by simp, by simp⟩

lemma append (h₁ : Visited kids l₁ M M₁ N₁) (h₂ : Visited kids l₂ M₁ M' N₂) :
    Visited kids (l₁ ++ l₂) M M' (N₁ ∪ N₂) := by
  have hdis : Disjoint N₁ N₂ := Finset.disjoint_left.2 fun u hu hu' =>
    h₂.fresh u hu' (h₁.vis ▸ .inr hu)
  have hsub : M₁.vis ⊆ M'.vis := h₂.vis ▸ Set.subset_union_left
  obtain ⟨q₁, hq₁, hmem₁⟩ := h₁.work
  obtain ⟨q₂, hq₂, hmem₂⟩ := h₂.work
  refine ⟨fun u hu => ?_, ?_, ⟨q₂ ++ q₁, by rw [hq₂, hq₁, List.append_assoc], fun u => by
    simp [hmem₁, hmem₂, or_comm]⟩, fun u => ?_, fun u hu w hw => ?_, fun u hu => ?_, fun u hu => ?_⟩
  · rcases Finset.mem_union.1 hu with hu | hu
    · exact h₁.fresh u hu
    · exact fun h => h₂.fresh u hu (h₁.vis ▸ .inl h)
  · rw [h₂.vis, h₁.vis, Finset.coe_union, Set.union_assoc]
  · rw [h₂.tmp, h₁.tmp, refs_union hdis, List.count_append]
    by_cases hu₂ : u ∈ N₂
    · obtain ⟨h1, h2, h3⟩ := h₁.later (h₂.fresh u hu₂)
      simp [hu₂, h2, h3]
    · simp only [hu₂, if_false, Finset.mem_union, or_false]
      omega
  · rcases Finset.mem_union.1 hu with hu | hu
    · exact hsub (h₁.closed u hu w hw)
    · exact h₂.closed u hu w hw
  · rcases List.mem_append.1 hu with hu | hu
    · exact hsub (h₁.met u hu)
    · exact h₂.met u hu
  · rcases Finset.mem_union.1 hu with hu | hu
    · obtain ⟨w, hw, h⟩ := h₁.reach u hu
      exact ⟨w, List.mem_append_left _ hw, h⟩
    · obtain ⟨w, hw, h⟩ := h₂.reach u hu
      exact ⟨w, List.mem_append_right _ hw, h⟩

/-- Met again -/
lemma again (hv : v ∈ M.vis) :
    Visited kids [v] M { M with tmp := fun u => M.tmp u + [v].count u } ∅ :=
  ⟨by simp, by simp, ⟨[], by simp⟩, by simp, by simp, by simpa using hv, by simp⟩

/-- `v` is visited, and met once. -/
def enter (v : V) (M : Marks V) : Marks V :=
  ⟨insert v M.vis, Function.update M.tmp v 1, v :: M.work⟩

/-- Met for the first time -/
lemma node (hv : v ∉ M.vis) (h : Visited kids (kids v) (enter v M) M' N) :
    Visited kids [v] M M' (insert v N) := by
  have hvN : v ∉ N := fun hN => h.fresh v hN (.inl rfl)
  obtain ⟨q, hq, hmem⟩ := h.work
  refine ⟨fun u hu => ?_, ?_, ⟨q ++ [v], by simp [hq, enter], fun u => by simp [hmem, or_comm]⟩,
    fun u => ?_, fun u hu => ?_, ?_, fun u hu => ?_⟩
  · rcases Finset.mem_insert.1 hu with rfl | hu
    · exact hv
    · exact fun h' => h.fresh u hu (.inr h')
  · rw [h.vis, enter, Finset.coe_insert, Set.insert_union, Set.union_insert]
  · rw [h.tmp, refs_insert hvN]
    by_cases huv : u = v
    · subst huv
      simp [hvN, enter, Nat.add_assoc]
    · have hne : v ≠ u := Ne.symm huv
      simp [enter, huv, hne, Nat.add_assoc]
  · rcases Finset.mem_insert.1 hu with rfl | hu
    · exact h.met
    · exact h.closed u hu
  · intro u hu
    rw [List.mem_singleton.1 hu, h.vis]
    exact .inl (.inl rfl)
  · rcases Finset.mem_insert.1 hu with rfl | hu
    · exact ⟨u, List.mem_singleton_self u, .refl⟩
    · obtain ⟨w, hw, hr⟩ := h.reach u hu
      exact ⟨v, List.mem_singleton_self v, .head hw hr⟩

lemma subset (h : Visited kids l M M' N) : M.vis ⊆ M'.vis := h.vis ▸ Set.subset_union_left

/-- Without the one that the search starts with, the references met are those of what is visited. -/
lemma uncount (h : Visited kids [v] M M' N) {u : V} (hu : M.tmp u = 0) :
    Function.update M'.tmp v (M'.tmp v - 1) u = refs kids N u := by
  have htmp := h.tmp u
  rw [hu, ite_self, Nat.zero_add] at htmp
  by_cases huv : u = v
  · subst huv
    rw [List.count_singleton_self] at htmp
    rw [Function.update_self]
    omega
  · rw [List.count_singleton, if_neg (by simpa using Ne.symm huv)] at htmp
    rw [Function.update_of_ne huv]
    omega

end Visited

/-! ### Unvisiting -/

/-- What the elements of `l` reach is unvisited: `N`. -/
structure Unvisited (kids : V → List V) (l : List V) (M M' : Marks V) (N : Set V) : Prop where
  vis : M'.vis = M.vis \ N
  sub : N ⊆ M.vis
  work : M'.work = M.work
  out : ∀ u ∈ N, M'.tmp u = 0
  kept : ∀ u ∉ N, M'.tmp u = M.tmp u
  closed : ∀ u ∈ N, ∀ w ∈ kids u, w ∉ M'.vis
  met : ∀ u ∈ l, u ∉ M'.vis
  reach : ∀ u ∈ N, ∃ w ∈ l, w ∈ M.vis ∧ Reach kids w u

namespace Unvisited

variable {D D₁ D₂ : Set V}

omit [DecidableEq V] in
lemma mem_vis (h : Unvisited kids l M M' D) {u : V} : u ∈ M'.vis ↔ u ∈ M.vis ∧ u ∉ D := by
  rw [h.vis]
  rfl

omit [DecidableEq V] in
lemma nil (M : Marks V) : Unvisited kids [] M M ∅ :=
  ⟨by simp, by simp, rfl, by simp, by simp, by simp, by simp, by simp⟩

omit [DecidableEq V] in
lemma append (h₁ : Unvisited kids l₁ M M₁ D₁) (h₂ : Unvisited kids l₂ M₁ M' D₂) :
    Unvisited kids (l₁ ++ l₂) M M' (D₁ ∪ D₂) := by
  have hsub : ∀ u, u ∉ M₁.vis → u ∉ M'.vis := fun u hu hu' => hu (h₂.mem_vis.1 hu').1
  have hsub₁ : ∀ u ∈ M₁.vis, u ∈ M.vis := fun u hu => (h₁.mem_vis.1 hu).1
  refine ⟨by rw [h₂.vis, h₁.vis, Set.sdiff_sdiff], ?_, h₂.work.trans h₁.work, fun u hu => ?_,
    fun u hu => ?_, fun u hu w hw => ?_, fun u hu => ?_, fun u hu => ?_⟩
  · exact Set.union_subset h₁.sub fun u hu => hsub₁ u (h₂.sub hu)
  · by_cases hu₂ : u ∈ D₂
    · exact h₂.out u hu₂
    · rw [h₂.kept u hu₂]
      exact h₁.out u (hu.resolve_right hu₂)
  · rw [h₂.kept u fun h => hu (.inr h), h₁.kept u fun h => hu (.inl h)]
  · rcases hu with hu | hu
    · exact hsub w (h₁.closed u hu w hw)
    · exact h₂.closed u hu w hw
  · rcases List.mem_append.1 hu with hu | hu
    · exact hsub u (h₁.met u hu)
    · exact h₂.met u hu
  · rcases hu with hu | hu
    · obtain ⟨w, hw, h⟩ := h₁.reach u hu
      exact ⟨w, List.mem_append_left _ hw, h⟩
    · obtain ⟨w, hw, hv, h⟩ := h₂.reach u hu
      exact ⟨w, List.mem_append_right _ hw, hsub₁ w hv, h⟩

omit [DecidableEq V] in
/-- Met when it is not visited -/
lemma again (hv : v ∉ M.vis) : Unvisited kids [v] M M ∅ :=
  ⟨by simp, by simp, rfl, by simp, by simp, by simp, by simpa using hv, by simp⟩

/-- `v` is no longer visited. -/
def leave (v : V) (M : Marks V) : Marks V :=
  ⟨M.vis \ {v}, Function.update M.tmp v 0, M.work⟩

lemma node (hv : v ∈ M.vis) (h : Unvisited kids (kids v) (leave v M) M' D) :
    Unvisited kids [v] M M' (insert v D) := by
  have hvD : v ∉ D := fun hD => (h.sub hD).2 rfl
  have hv' : v ∉ M'.vis := fun h' => (h.mem_vis.1 h').1.2 rfl
  refine ⟨?_, ?_, h.work, fun u hu => ?_, fun u hu => ?_, fun u hu => ?_, ?_, fun u hu => ?_⟩
  · rw [h.vis, leave, Set.sdiff_sdiff, Set.singleton_union]
  · exact Set.insert_subset hv fun u hu => (h.sub hu).1
  · by_cases hD : u ∈ D
    · exact h.out u hD
    · rw [h.kept u hD, hu.resolve_right hD]
      exact Function.update_self ..
  · rw [h.kept u fun h' => hu (.inr h')]
    exact Function.update_of_ne (fun h' => hu (.inl h')) ..
  · rcases hu with rfl | hu
    · exact h.met
    · exact h.closed u hu
  · intro u hu
    rwa [List.mem_singleton.1 hu]
  · rcases hu with rfl | hu
    · exact ⟨u, List.mem_singleton_self u, hv, .refl⟩
    · obtain ⟨w, hw, _, hr⟩ := h.reach u hu
      exact ⟨v, List.mem_singleton_self v, hv, .head hw hr⟩

end Unvisited

/-- Of the elements of `q`, one after the other, those with more references than were met are
unvisited, with what they reach: `D`. -/
structure Rescued (kids : V → List V) (rc : V → ℕ) (q : List V) (M M' : Marks V) (D : Set V) :
    Prop where
  vis : M'.vis = M.vis \ D
  sub : D ⊆ M.vis
  out : ∀ u ∈ D, M'.tmp u = 0
  kept : ∀ u ∉ D, M'.tmp u = M.tmp u
  closed : ∀ u ∈ D, ∀ w ∈ kids u, w ∉ M'.vis
  met : ∀ u ∈ q, u ∈ M'.vis → rc u ≤ M'.tmp u
  reach : ∀ u ∈ D, ∃ w ∈ q, w ∈ M.vis ∧ M.tmp w < rc w ∧ Reach kids w u

namespace Rescued

variable {rc : V → ℕ} {q : List V} {D D₁ D₂ : Set V}

omit [DecidableEq V] in
lemma mem_vis (h : Rescued kids rc q M M' D) {u : V} : u ∈ M'.vis ↔ u ∈ M.vis ∧ u ∉ D := by
  rw [h.vis]
  rfl

omit [DecidableEq V] in
lemma nil (M : Marks V) : Rescued kids rc [] M M ∅ :=
  ⟨by simp, by simp, by simp, by simp, by simp, by simp, by simp⟩

omit [DecidableEq V] in
/-- As many references as were met -/
lemma skip (hv : rc v ≤ M.tmp v) (h : Rescued kids rc q M M' D) :
    Rescued kids rc (v :: q) M M' D := by
  refine ⟨h.vis, h.sub, h.out, h.kept, h.closed, fun u hu hu' => ?_, fun u hu => ?_⟩
  · rcases List.mem_cons.1 hu with rfl | hu
    · rw [h.kept u (h.mem_vis.1 hu').2]
      exact hv
    · exact h.met u hu hu'
  · obtain ⟨w, hw, h'⟩ := h.reach u hu
    exact ⟨w, List.mem_cons_of_mem _ hw, h'⟩

omit [DecidableEq V] in
/-- More references than were met -/
lemma cons (hv : M.tmp v < rc v) (h₁ : Unvisited kids [v] { M with work := q } M₁ D₁)
    (h₂ : Rescued kids rc q M₁ M' D₂) : Rescued kids rc (v :: q) M M' (D₁ ∪ D₂) := by
  have hsub : ∀ u, u ∉ M₁.vis → u ∉ M'.vis := fun u hu hu' => hu (h₂.mem_vis.1 hu').1
  have hvis₁ : ∀ u ∈ M₁.vis, u ∈ M.vis ∧ u ∉ D₁ := fun u hu => h₁.mem_vis.1 hu
  refine ⟨by rw [h₂.vis, h₁.vis, Set.sdiff_sdiff], ?_, fun u hu => ?_,
    fun u hu => ?_, fun u hu w hw => ?_, fun u hu hu' => ?_, fun u hu => ?_⟩
  · exact Set.union_subset h₁.sub fun u hu => (hvis₁ u (h₂.sub hu)).1
  · by_cases hu₂ : u ∈ D₂
    · exact h₂.out u hu₂
    · rw [h₂.kept u hu₂]
      exact h₁.out u (hu.resolve_right hu₂)
  · rw [h₂.kept u fun h => hu (.inr h), h₁.kept u fun h => hu (.inl h)]
  · rcases hu with hu | hu
    · exact hsub w (h₁.closed u hu w hw)
    · exact h₂.closed u hu w hw
  · rcases List.mem_cons.1 hu with rfl | hu
    · exact absurd hu' (hsub u (h₁.met u (List.mem_singleton_self u)))
    · exact h₂.met u hu hu'
  · rcases hu with hu | hu
    · obtain ⟨w, hw, hwv, hr⟩ := h₁.reach u hu
      rw [List.mem_singleton.1 hw] at hwv hr
      exact ⟨v, List.mem_cons_self, hwv, hv, hr⟩
    · obtain ⟨w, hw, hwv, hlt, hr⟩ := h₂.reach u hu
      rw [h₁.kept w (hvis₁ w hwv).2] at hlt
      exact ⟨w, List.mem_cons_of_mem _ hw, (hvis₁ w hwv).1, hlt, hr⟩

end Rescued

/-! ### Sweeping -/

/-- The elements of `l` that are in `G` are taken away, with all of `G` that they reach: `N`. The
references in `d` are dropped, and those that the elements of `N` hold. -/
structure Swept (kids : V → List V) (G : Finset V) (l d : List V) (R R' : Finset V)
    (rc rc' : V → ℕ) (N : Finset V) : Prop where
  fresh : Disjoint N R
  sub : N ⊆ G
  all : R' = R ∪ N
  rc : ∀ u, rc' u + d.count u + refs kids N u = rc u
  closed : ∀ u ∈ N, ∀ w ∈ kids u, w ∈ G → w ∈ R'
  met : ∀ u ∈ l, u ∈ G → u ∈ R'
  reach : ∀ u ∈ N, ∃ w ∈ l, Reach kids w u

/-- There are references enough to be dropped. -/
def Enough (kids : V → List V) (G : Finset V) (d : List V) (R : Finset V) (rc : V → ℕ) : Prop :=
  ∀ u, d.count u + refs kids (G \ R) u ≤ rc u

namespace Swept

variable {G R R' R₁ : Finset V} {rc rc' rc₁ : V → ℕ} {d d₁ d₂ : List V}

lemma nil : Swept kids G [] [] R R rc rc ∅ :=
  ⟨by simp, by simp, by simp, by simp, by simp, by simp, by simp⟩

lemma append (h₁ : Swept kids G l₁ d₁ R R₁ rc rc₁ N₁) (h₂ : Swept kids G l₂ d₂ R₁ R' rc₁ rc' N₂) :
    Swept kids G (l₁ ++ l₂) (d₁ ++ d₂) R R' rc rc' (N₁ ∪ N₂) := by
  have hall := h₁.all
  have hfresh := h₂.fresh
  rw [hall, Finset.disjoint_union_right] at hfresh
  have hsub : ∀ u ∈ R₁, u ∈ R' := fun u hu => h₂.all ▸ Finset.mem_union_left _ hu
  refine ⟨?_, Finset.union_subset h₁.sub h₂.sub, ?_, fun u => ?_, fun u hu w hw hG => ?_,
    fun u hu hG => ?_, fun u hu => ?_⟩
  · exact Finset.disjoint_union_left.2 ⟨h₁.fresh, hfresh.1⟩
  · rw [h₂.all, hall, Finset.union_assoc]
  · have := h₁.rc u
    have := h₂.rc u
    rw [refs_union hfresh.2.symm, List.count_append]
    omega
  · rcases Finset.mem_union.1 hu with hu | hu
    · exact hsub w (h₁.closed u hu w hw hG)
    · exact h₂.closed u hu w hw hG
  · rcases List.mem_append.1 hu with hu | hu
    · exact hsub u (h₁.met u hu hG)
    · exact h₂.met u hu hG
  · rcases Finset.mem_union.1 hu with hu | hu
    · obtain ⟨w, hw, h⟩ := h₁.reach u hu
      exact ⟨w, List.mem_append_left _ hw, h⟩
    · obtain ⟨w, hw, h⟩ := h₂.reach u hu
      exact ⟨w, List.mem_append_right _ hw, h⟩

/-- One reference is dropped. -/
lemma drop (h : rc v = rc' v + 1) (hne : ∀ u ≠ v, rc' u = rc u) :
    Swept kids G [] [v] R R rc rc' ∅ := by
  refine ⟨by simp, by simp, by simp, fun u => ?_, by simp, by simp, by simp⟩
  by_cases hu : u = v
  · subst hu
    simp [h]
  · simp [hne u hu, Ne.symm hu]

/-- Not in `G`, or taken away before -/
lemma again (hv : v ∈ G → v ∈ R) : Swept kids G [v] [] R R rc rc ∅ :=
  ⟨by simp, by simp, by simp, by simp, by simp, by simpa using hv, by simp⟩

lemma node (hv : v ∈ G) (hR : v ∉ R) (h : Swept kids G (kids v) (kids v) (insert v R) R' rc rc' N) :
    Swept kids G [v] [] R R' rc rc' (insert v N) := by
  have hfresh := h.fresh
  rw [Finset.disjoint_insert_right] at hfresh
  refine ⟨Finset.disjoint_insert_left.2 ⟨hR, hfresh.2⟩, Finset.insert_subset hv h.sub, ?_,
    fun u => ?_, fun u hu => ?_, fun u hu _ => ?_, fun u hu => ?_⟩
  · rw [h.all, Finset.insert_union, Finset.union_insert]
  · have := h.rc u
    rw [refs_insert hfresh.1, List.count_nil]
    omega
  · rcases Finset.mem_insert.1 hu with rfl | hu
    · exact h.met
    · exact h.closed u hu
  · rw [List.mem_singleton.1 hu, h.all]
    exact Finset.mem_union_left _ (Finset.mem_insert_self _ _)
  · rcases Finset.mem_insert.1 hu with rfl | hu
    · exact ⟨u, List.mem_singleton_self u, .refl⟩
    · obtain ⟨w, hw, hr⟩ := h.reach u hu
      exact ⟨v, List.mem_singleton_self v, .head hw hr⟩

/-- What is dropped leaves enough for the rest. -/
lemma enough (h : Swept kids G l d₁ R R' rc rc' N) (he : Enough kids G (d₁ ++ d₂) R rc) :
    Enough kids G d₂ R' rc' := by
  intro u
  have hN : N ⊆ G \ R := Finset.subset_sdiff.2 ⟨h.sub, h.fresh⟩
  have hR' : G \ R' = (G \ R) \ N := by rw [h.all, sdiff_sdiff_left, Finset.sup_eq_union]
  have h1 := he u
  have h2 := h.rc u
  have h3 := refs_sdiff kids hN u
  rw [List.count_append] at h1
  rw [hR']
  omega

lemma enough_node (hv : v ∈ G) (hR : v ∉ R) (he : Enough kids G [] R rc) :
    Enough kids G (kids v) (insert v R) rc := by
  intro u
  have h1 := he u
  have h2 : G \ R = insert v (G \ insert v R) := by
    ext w
    by_cases hw : w = v <;> simp [hw, hv, hR]
  rw [h2, refs_insert (by simp), List.count_nil] at h1
  omega

end Swept

/-! ### Garbage -/

/-- What the elements of `F` reach -/
def closure (kids : V → List V) (F : Set V) : Set V := {u | ∃ f ∈ F, Reach kids f u}

/-- Referenced from outside `C`: `out` counts the references that no element of `L` holds. -/
def Held (kids : V → List V) (L : Finset V) (out : V → ℕ) (C : Set V) (v : V) : Prop :=
  0 < out v ∨ ∃ u ∈ L, u ∉ C ∧ v ∈ kids u

/-- **Garbage**: reached from `F`, and from nothing there that is held. -/
def garbage (kids : V → List V) (L : Finset V) (out : V → ℕ) (F : Set V) : Set V :=
  {u | u ∈ closure kids F ∧
    ∀ v ∈ closure kids F, Held kids L out (closure kids F) v → ¬ Reach kids v u}

/-- Nothing outside `S` refers to it. -/
def Sealed (kids : V → List V) (L S : Finset V) : Prop := ∀ u ∈ L, u ∉ S → ∀ v ∈ kids u, v ∉ S

/-- The references of the elements that are left, counted -/
def Counted (kids : V → List V) (L S : Finset V) (out rc : V → ℕ) : Prop :=
  ∀ v ∈ L \ S, rc v = refs kids (L \ S) v + out v

section Garbage

variable {L S S' : Finset V} {out rc rc' : V → ℕ} {F : Set V} {u x : V}

omit [DecidableEq V] in
lemma closure_reach (hu : u ∈ closure kids F) (hx : Reach kids u x) : x ∈ closure kids F := by
  obtain ⟨f, hf, h⟩ := hu
  exact ⟨f, hf, h.trans hx⟩

omit [DecidableEq V] in
lemma mem_singleton_closure : u ∈ closure kids {v} ↔ Reach kids v u := by simp [closure]

omit [DecidableEq V] in
lemma reach_mem (hL : ∀ u ∈ L, ∀ v ∈ kids u, v ∈ L) (hu : u ∈ L) (h : Reach kids u x) : x ∈ L := by
  induction h with
  | refl => exact hu
  | tail _ hx ih => exact hL _ ih _ hx

omit [DecidableEq V] in
lemma Sealed.reach (hs : Sealed kids L S) (hL : ∀ u ∈ L, ∀ v ∈ kids u, v ∈ L) (hu : u ∈ L)
    (hS : u ∉ S) (h : Reach kids u x) : x ∉ S := by
  induction h with
  | refl => exact hS
  | tail hr hx ih => exact hs _ (reach_mem hL hu hr) ih _ hx

omit [DecidableEq V] in
/-- What garbage is reached from is garbage. -/
lemma garbage_back (hu : u ∈ closure kids F) (h : Reach kids u x)
    (hx : x ∈ garbage kids L out F) : u ∈ garbage kids L out F :=
  ⟨hu, fun v hv hheld hr => hx.2 v hv hheld (hr.trans h)⟩

omit [DecidableEq V] in
lemma not_held (hu : u ∈ garbage kids L out F) : ¬ Held kids L out (closure kids F) u :=
  fun h => hu.2 u hu.1 h .refl

end Garbage

/-! ### One search -/

section Search

variable {L S G R : Finset V} {out rc rc' : V → ℕ} {d u : V} {M₂ M₃ : Marks V} {D : Set V}
  {q : List V} {T : Finset V}
variable (hL : ∀ u ∈ L, ∀ v ∈ kids u, v ∈ L) (hs : Sealed kids L S)
variable (hd : d ∈ L) (hdS : d ∉ S) (hM : M.vis = S) (hV : Visited kids [d] M M₁ N)

include hL hs hd hdS hM hV

/-- All that an element reaches is visited. -/
lemma visited_iff : u ∈ N ↔ Reach kids d u := by
  refine ⟨fun hu => ?_, fun hu => ?_⟩
  · obtain ⟨w, hw, h⟩ := hV.reach u hu
    rwa [List.mem_singleton.1 hw] at h
  · have hmem : ∀ x ∈ M₁.vis, x ∉ S → x ∈ N := fun x hx hxS => by
      rw [hV.vis, hM] at hx
      exact hx.resolve_left hxS
    induction hu with
    | refl => exact hmem d (hV.met d (List.mem_singleton_self d)) hdS
    | tail hr hx ih =>
      have hxS := hs.reach hL hd hdS (hr.tail hx)
      exact hmem _ (hV.closed _ ih _ hx) hxS

/-- The references from elsewhere are those that were not met. -/
lemma lt_rc_iff (hc : Counted kids L S out rc) (hu : u ∈ N) :
    refs kids N u < rc u ↔ Held kids (L \ S) out (closure kids {d}) u := by
  have hiff (x : V) : x ∈ N ↔ Reach kids d x := visited_iff hL hs hd hdS hM hV
  have hN : N ⊆ L \ S := fun x hx => Finset.mem_sdiff.2
    ⟨reach_mem hL hd ((hiff x).1 hx), hs.reach hL hd hdS ((hiff x).1 hx)⟩
  have h1 := hc u (hN hu)
  have h2 := refs_sdiff kids hN u
  have hpos : refs kids N u < rc u ↔ 0 < out u ∨ 0 < refs kids ((L \ S) \ N) u := by omega
  rw [hpos, refs_pos, Held]
  refine or_congr_right (exists_congr fun x => ?_)
  rw [Finset.mem_sdiff (s := L \ S), hiff, mem_singleton_closure, and_assoc]

variable (hc : Counted kids L S out rc) (hM₂ : M₂.vis = M₁.vis)
variable (htmp : ∀ u ∈ N, M₂.tmp u = refs kids N u) (hq : ∀ u, u ∈ q ↔ u ∈ N)
variable (hR : Rescued kids rc q M₂ M₃ D)

include hM₂ hR

omit hL hs hd hdS hM in
/-- What is visited and reached from what is unvisited is unvisited. -/
lemma rescued_step (hu : u ∈ D) {x : V} (hx : x ∈ kids u) (hN : x ∈ N) : x ∈ D := by
  have hvis : x ∈ M₂.vis := by
    rw [hM₂, hV.vis]
    exact .inr hN
  by_contra hD
  exact hR.closed u hu x hx (hR.mem_vis.2 ⟨hvis, hD⟩)

include hc htmp hq

/-- What was visited and stays so is garbage. -/
lemma garbage_iff : u ∈ garbage kids (L \ S) out {d} ↔ u ∈ N ∧ u ∉ D := by
  have hiff (x : V) : x ∈ N ↔ Reach kids d x := visited_iff hL hs hd hdS hM hV
  have hlt (x : V) (hx : x ∈ N) := lt_rc_iff hL hs hd hdS hM hV hc hx
  have hstep (x : V) (hx : x ∈ D) (y : V) := rescued_step (x := y) hV hM₂ hR hx
  rw [garbage, Set.mem_ofPred_eq, mem_singleton_closure, ← hiff]
  refine and_congr_right fun hu => ⟨fun h hD => ?_, fun hD v hv hheld hr => hD ?_⟩
  · obtain ⟨w, hw, -, hwlt, hr⟩ := hR.reach u hD
    have hwN := (hq w).1 hw
    rw [htmp w hwN] at hwlt
    exact h w (mem_singleton_closure.2 ((hiff w).1 hwN)) ((hlt w hwN).1 hwlt) hr
  · have hvN : v ∈ N := (hiff v).2 (mem_singleton_closure.1 hv)
    have hvD : v ∈ D := by
      by_contra hvD
      have hvis : v ∈ M₃.vis := by
        rw [hR.mem_vis, hM₂, hV.vis]
        exact ⟨.inr hvN, hvD⟩
      have h1 := hR.met v ((hq v).2 hvN) hvis
      rw [hR.kept v hvD, htmp v hvN] at h1
      exact absurd ((hlt v hvN).2 hheld) (by omega)
    -- along the chain nothing is visited any more
    induction hr with
    | refl => exact hvD
    | tail hr hx ih =>
      have hmem {x : V} (h : Reach kids v x) : x ∈ N := (hiff x).2 (((hiff v).1 hvN).trans h)
      exact hstep _ (ih (hmem hr) fun h => hstep _ h _ hx hu |> hD) _ hx hu

variable (hG : M₃.vis = G)

include hG

omit hL hs hd hdS hc htmp hq in
lemma mem_left {x : V} : x ∈ G ↔ (x ∈ S ∨ x ∈ N) ∧ x ∉ D := by
  have h := hR.mem_vis (u := x)
  rwa [hG, hM₂, hV.vis, hM] at h

omit htmp hq in
/-- There are enough references to drop. -/
lemma enough_search : Enough kids G [] S rc := by
  intro u
  have hsub : G \ S ⊆ L \ S := fun x hx => by
    rw [Finset.mem_sdiff, mem_left hM hV hM₂ hR hG] at hx
    have hN := hx.1.1.resolve_left hx.2
    rw [visited_iff hL hs hd hdS hM hV] at hN
    exact Finset.mem_sdiff.2 ⟨reach_mem hL hd hN, hx.2⟩
  rw [List.count_nil, Nat.zero_add]
  by_cases hu : u ∈ L \ S
  · rw [hc u hu]
    exact (refs_mono hsub).trans (Nat.le_add_right _ _)
  · have h0 : refs kids (G \ S) u = 0 := refs_eq_zero.2 fun x hx hxu => hu <| by
      have hx' := Finset.mem_sdiff.1 (hsub hx)
      exact Finset.mem_sdiff.2 ⟨hL x hx'.1 u hxu, hs x hx'.1 hx'.2 u hxu⟩
    exact h0 ▸ Nat.zero_le _

omit hc htmp hq in
/-- What stays visited is taken away. -/
lemma swept_iff (hW : Swept kids G [d] [] S R rc rc' T) : u ∈ T ↔ u ∈ N ∧ u ∉ D := by
  have hiff (x : V) : x ∈ N ↔ Reach kids d x := visited_iff hL hs hd hdS hM hV
  have hmem (x : V) : x ∈ G ↔ (x ∈ S ∨ x ∈ N) ∧ x ∉ D := mem_left hM hV hM₂ hR hG
  have hR' (x : V) (hx : x ∈ R) (hr : Reach kids d x) : x ∈ T := by
    rw [hW.all, Finset.mem_union] at hx
    exact hx.resolve_left (hs.reach hL hd hdS hr)
  refine ⟨fun hu => ?_, fun hu => ?_⟩
  · have h := (hmem u).1 (hW.sub hu)
    exact ⟨h.1.resolve_left (Finset.disjoint_left.1 hW.fresh hu), h.2⟩
  · obtain ⟨hN, hD⟩ := hu
    have hr := (hiff u).1 hN
    refine hR' u ?_ hr
    induction hr with
    | refl => exact hW.met d (List.mem_singleton_self d) ((hmem d).2 ⟨.inr hN, hD⟩)
    | tail hr hx ih =>
      have hyN := (hiff _).2 hr
      have hyD := fun h => hD (rescued_step hV hM₂ hR h hx hN)
      exact hW.closed _ (hR' _ (ih hyN hyD) hr) _ hx ((hmem _).2 ⟨.inr hN, hD⟩)

/-- **One search** takes away the garbage that is reached from `d`, and keeps the references that
are left counted. -/
theorem search_spec (hW : Swept kids G [d] [] S R rc rc' T) :
    (∀ u, u ∈ R ↔ u ∈ S ∨ u ∈ garbage kids (L \ S) out {d}) ∧ Counted kids L R out rc' ∧
      G = R := by
  have hiff (x : V) : x ∈ N ↔ Reach kids d x := visited_iff hL hs hd hdS hM hV
  have hT (x : V) : x ∈ T ↔ x ∈ N ∧ x ∉ D := swept_iff hL hs hd hdS hM hV hM₂ hR hG hW
  have hS (x : V) (hx : x ∈ N) : x ∉ S := hs.reach hL hd hdS ((hiff x).1 hx)
  refine ⟨fun u => ?_, fun v hv => ?_, Finset.ext fun x => ?_⟩
  · rw [hW.all, Finset.mem_union, hT,
      garbage_iff hL hs hd hdS hM hV hc hM₂ htmp hq hR]
  · rw [hW.all, Finset.mem_sdiff, Finset.notMem_union] at hv
    have hTL : T ⊆ L \ S := fun x hx => by
      have hx := ((hT x).1 hx).1
      exact Finset.mem_sdiff.2 ⟨reach_mem hL hd ((hiff x).1 hx), hS x hx⟩
    have h1 := hc v (Finset.mem_sdiff.2 ⟨hv.1, hv.2.1⟩)
    have h2 := hW.rc v
    have h3 := refs_sdiff kids hTL v
    rw [List.count_nil] at h2
    rw [hW.all, ← Finset.sup_eq_union, ← sdiff_sdiff_left]
    omega
  · rw [mem_left hM hV hM₂ hR hG, hW.all, Finset.mem_union, hT]
    refine ⟨fun h => h.1.imp_right fun hN => ⟨hN, h.2⟩, fun h => ⟨h.imp_right And.left, ?_⟩⟩
    rcases h with hxS | h
    · intro hD
      obtain ⟨w, hw, -, -, hr⟩ := hR.reach x hD
      exact hs.reach hL hd hdS (((hiff w).1 ((hq w).1 hw)).trans hr) hxS
    · exact h.2

end Search

/-! ### One search after the other -/

/-- From each of the elements of a list that is not taken away yet, the garbage that it reaches is
taken away. -/
inductive Rounds (kids : V → List V) (L : Finset V) (out : V → ℕ) :
    List V → Finset V → Finset V → Prop
  | nil (S : Finset V) : Rounds kids L out [] S S
  | skip {d : V} {ds : List V} {S S' : Finset V} (h : d ∈ S) (hs : Rounds kids L out ds S S') :
      Rounds kids L out (d :: ds) S S'
  | search {d : V} {ds : List V} {S S₁ S' : Finset V} (h : d ∉ S)
      (h₁ : ∀ u, u ∈ S₁ ↔ u ∈ S ∨ u ∈ garbage kids (L \ S) out {d})
      (hs : Rounds kids L out ds S₁ S') : Rounds kids L out (d :: ds) S S'

/-- What holds between the searches: the garbage that is left is reached from what is still to be
searched from. -/
structure Searched (kids : V → List V) (L : Finset V) (out : V → ℕ) (F : Set V) (ds : List V)
    (S : Finset V) : Prop where
  mem : ∀ u ∈ S, u ∈ closure kids F
  sealed : Sealed kids L S
  unheld : ∀ u ∈ S, out u = 0
  rest : ∀ u ∈ garbage kids L out F, u ∉ S → ∃ f ∈ ds, f ∉ S ∧ Reach kids f u
  roots : ∀ f ∈ ds, f ∈ F

section Rounds

variable {L S S₁ S' : Finset V} {out : V → ℕ} {F : Set V} {ds : List V} {d : V}

/-- Nothing that is left refers to the garbage that is taken away. -/
lemma Sealed.search (hs : Sealed kids L S)
    (h₁ : ∀ u, u ∈ S₁ ↔ u ∈ S ∨ u ∈ garbage kids (L \ S) out {d}) : Sealed kids L S₁ := by
  intro u hu hS v hv hvS
  have huS : u ∉ S := fun h => hS ((h₁ u).2 (.inl h))
  rcases (h₁ v).1 hvS with hvS | hvg
  · exact hs u hu huS v hv hvS
  · by_cases hud : u ∈ closure kids {d}
    · exact hS ((h₁ u).2 (.inr (garbage_back hud (.single hv) hvg)))
    · exact not_held hvg (.inr ⟨u, Finset.mem_sdiff.2 ⟨hu, huS⟩, hud, hv⟩)

namespace Searched

omit [DecidableEq V] in
lemma skip (h : Searched kids L out F (d :: ds) S) (hd : d ∈ S) : Searched kids L out F ds S := by
  refine ⟨h.mem, h.sealed, h.unheld, fun u hu hS => ?_, fun f hf => h.roots f (.tail _ hf)⟩
  obtain ⟨f, hf, hfS, hr⟩ := h.rest u hu hS
  rcases List.mem_cons.1 hf with rfl | hf
  · exact absurd hd hfS
  · exact ⟨f, hf, hfS, hr⟩

/-- The garbage that one search leaves is not reached from where it started: it is held by garbage
that another search will reach. -/
lemma search (h : Searched kids L out F (d :: ds) S)
    (h₁ : ∀ u, u ∈ S₁ ↔ u ∈ S ∨ u ∈ garbage kids (L \ S) out {d}) :
    Searched kids L out F ds S₁ := by
  have hdF : ∀ {u}, u ∈ closure kids {d} → u ∈ closure kids F := fun {u} hu =>
    ⟨d, h.roots d List.mem_cons_self, mem_singleton_closure.1 hu⟩
  have hsub {u : V} (hu : u ∉ S₁) : u ∉ S := fun hS => hu ((h₁ u).2 (.inl hS))
  have hnot {u : V} (hu : u ∉ S₁) : u ∉ garbage kids (L \ S) out {d} := fun hg =>
    hu ((h₁ u).2 (.inr hg))
  refine ⟨fun u hu => ?_, h.sealed.search h₁, fun u hu => ?_, fun u hu hS => ?_,
    fun f hf => h.roots f (.tail _ hf)⟩
  · rcases (h₁ u).1 hu with hu | hu
    · exact h.mem u hu
    · exact hdF hu.1
  · rcases (h₁ u).1 hu with hu | hu
    · exact h.unheld u hu
    · exact Nat.eq_zero_of_not_pos fun hpos => not_held hu (.inl hpos)
  · -- an element that a later search starts from, or one that this search has left
    have hleft {f u : V} (hf : f ∈ d :: ds) (hfS : f ∉ S) (hr : Reach kids f u)
        (hu : u ∉ closure kids {d}) : ∃ f ∈ ds, f ∉ S₁ ∧ Reach kids f u := by
      have hfd : f ∉ closure kids {d} := fun hf => hu (closure_reach hf hr)
      refine ⟨f, (List.mem_cons.1 hf).resolve_left ?_, fun hfS₁ => ?_, hr⟩
      · rintro rfl
        exact hfd (mem_singleton_closure.2 .refl)
      · exact ((h₁ f).1 hfS₁).elim hfS fun hg => hfd hg.1
    obtain ⟨f, hf, hfS, hr⟩ := h.rest u hu (hsub hS)
    by_cases hud : u ∈ closure kids {d}
    · have hheld : ∃ v ∈ closure kids {d},
          Held kids (L \ S) out (closure kids {d}) v ∧ Reach kids v u := by
        by_contra hno
        exact hnot hS ⟨hud, fun v hv hheld hvu => hno ⟨v, hv, hheld, hvu⟩⟩
      obtain ⟨v, hv, hheld, hvu⟩ := hheld
      have hvg := garbage_back (hdF hv) hvu hu
      have hv0 : ¬ 0 < out v := fun hpos => not_held hvg (.inl hpos)
      obtain ⟨x, hx, hxd, hxv⟩ := hheld.resolve_left hv0
      rw [Finset.mem_sdiff] at hx
      have hxF : x ∈ closure kids F := by
        by_contra hxF
        exact not_held hvg (.inr ⟨x, hx.1, hxF, hxv⟩)
      have hxu : Reach kids x u := .head hxv hvu
      obtain ⟨f', hf', hfS', hr'⟩ := h.rest x (garbage_back hxF hxu hu) hx.2
      obtain ⟨g, hg, hgS, hgx⟩ := hleft hf' hfS' hr' hxd
      exact ⟨g, hg, hgS, hgx.trans hxu⟩
    · exact hleft hf hfS hr hud

end Searched

/-- **Searches in any order** take away all garbage that is reached from where they start, and
nothing else. -/
theorem rounds_garbage (hL : ∀ u ∈ L, ∀ v ∈ kids u, v ∈ L) (hF : ∀ f ∈ ds, f ∈ L)
    (h : Rounds kids L out ds ∅ S) {u : V} : u ∈ S ↔ u ∈ garbage kids L out {f | f ∈ ds} := by
  have hrun {ds' : List V} {S₀ S' : Finset V} (hr : Rounds kids L out ds' S₀ S')
      (hi : Searched kids L out {f | f ∈ ds} ds' S₀) :
      Searched kids L out {f | f ∈ ds} [] S' := by
    induction hr with
    | nil => exact hi
    | skip hd _ ih => exact ih (hi.skip hd)
    | search _ h₁ _ ih => exact ih (hi.search h₁)
  have hend := hrun h ⟨by simp, by simp [Sealed], by simp, fun u hu _ => by
    obtain ⟨f, hf, hr⟩ := hu.1
    exact ⟨f, hf, by simp, hr⟩, fun f hf => hf⟩
  refine ⟨fun hu => ⟨hend.mem u hu, fun v hv hheld hvu => ?_⟩, fun hu => ?_⟩
  · have hvL : v ∈ L := by
      obtain ⟨f, hf, hr⟩ := hv
      exact reach_mem hL (hF f hf) hr
    have hvS : v ∈ S := by
      by_contra hvS
      exact hend.sealed.reach hL hvL hvS hvu hu
    rcases hheld with hpos | ⟨x, hx, hxF, hxv⟩
    · exact absurd (hend.unheld v hvS) (Nat.pos_iff_ne_zero.1 hpos)
    · exact hend.sealed x hx (fun hxS => hxF (hend.mem x hxS)) v hxv hvS
  · by_contra hS
    obtain ⟨f, hf, -⟩ := hend.rest u hu hS
    exact absurd hf List.not_mem_nil

end Rounds

end LispMachine.Lib.Marking
