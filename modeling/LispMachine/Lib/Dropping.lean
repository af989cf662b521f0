import LispMachine.Lib.Marking

/-!
Dropping counted references: an element without references goes, and the references that it holds
are dropped in turn. Elements that refer to each other keep each other.
-/

namespace LispMachine.Lib.Dropping

open LispMachine.Lib.Marking
  (refs refs_insert refs_union refs_sdiff refs_mono refs_eq_zero refs_pos)

variable {V : Type*} [DecidableEq V] {kids : V → List V} {mortal : V → Prop} {L : Finset V}
  {own own' : V → ℕ} {l l₁ l₂ D D₁ D₂ : List V} {a u v : V}

/-- What goes when the references in `l` are dropped: the mortal elements of `L` that all references
came from elements that go, or were dropped. `own` counts the references from outside of `L`. -/
inductive Dies (kids : V → List V) (mortal : V → Prop) (L : Finset V) (own : V → ℕ) (l : List V) :
    V → Prop
  | mk {a : V} (mem : a ∈ L) (hm : mortal a) (dropped : own a = l.count a)
      (closed : ∀ u ∈ L, a ∈ kids u → Dies kids mortal L own l u)
      (lost : 0 < l.count a ∨ ∃ u ∈ L, a ∈ kids u) : Dies kids mortal L own l a

/-- The elements of `D` go, in this order, when the references in `l` are dropped. -/
structure Cascade (kids : V → List V) (mortal : V → Prop) (L : Finset V) (own : V → ℕ)
    (l D : List V) : Prop where
  nodup : D.Nodup
  sub : ∀ a ∈ D, a ∈ L
  hm : ∀ a ∈ D, mortal a
  dropped : ∀ a ∈ D, own a = l.count a
  closed : ∀ a ∈ D, refs kids L a = refs kids D.toFinset a
  lost : ∀ a ∈ D, 0 < l.count a + refs kids D.toFinset a
  left : ∀ a ∈ L, a ∉ D → mortal a → 0 < l.count a + refs kids D.toFinset a →
    0 < own a - l.count a + refs kids (L \ D.toFinset) a
  self : ∀ a ∈ D, a ∉ kids a
  order : D.Pairwise fun a b => a ∉ kids b

namespace Cascade

/-- What refers to an element that goes, goes. -/
lemma referrer (h : Cascade kids mortal L own l D) (ha : a ∈ D) (hu : u ∈ L) (hau : a ∈ kids u) :
    u ∈ D := by
  by_contra huD
  have hsub : D.toFinset ⊆ L := fun x hx => h.sub x (List.mem_toFinset.1 hx)
  have h1 := refs_sdiff kids hsub a
  have h2 := h.closed a ha
  have h3 : 0 < refs kids (L \ D.toFinset) a :=
    refs_pos.2 ⟨u, Finset.mem_sdiff.2 ⟨hu, fun h => huD (List.mem_toFinset.1 h)⟩, hau⟩
  omega

/-- **What goes** is what dies. -/
theorem mem_iff (h : Cascade kids mortal L own l D) (ha : a ∈ L) :
    a ∈ D ↔ Dies kids mortal L own l a := by
  constructor
  · have hall (pre post : List V) (hD : D = pre ++ post)
        (hpre : ∀ x ∈ pre, Dies kids mortal L own l x) :
        ∀ x ∈ post, Dies kids mortal L own l x := by
      induction post generalizing pre with
      | nil => simp
      | cons a post ih =>
        have haD : a ∈ D := by simp [hD]
        have horder := h.order
        rw [hD, List.pairwise_append, List.pairwise_cons] at horder
        have hdies : Dies kids mortal L own l a := by
          refine .mk (h.sub a haD) (h.hm a haD) (h.dropped a haD) (fun u hu hau => ?_) ?_
          · have huD := h.referrer haD hu hau
            rw [hD, List.mem_append, List.mem_cons] at huD
            rcases huD with hu | rfl | hu
            · exact hpre u hu
            · exact absurd hau (h.self u haD)
            · exact absurd hau (horder.2.1.1 u hu)
          · rcases Nat.eq_zero_or_pos (l.count a) with h0 | hpos
            · have hlost := h.lost a haD
              rw [h0, Nat.zero_add, refs_pos] at hlost
              obtain ⟨u, hu, hau⟩ := hlost
              exact .inr ⟨u, h.sub u (List.mem_toFinset.1 hu), hau⟩
            · exact .inl hpos
        have hrest := ih (pre ++ [a]) (by simp [hD]) fun x hx => by
          rcases List.mem_append.1 hx with hx | hx
          · exact hpre x hx
          · exact List.mem_singleton.1 hx ▸ hdies
        intro x hx
        rcases List.mem_cons.1 hx with rfl | hx
        · exact hdies
        · exact hrest x hx
    exact hall [] D rfl (by simp) a
  · intro hdies
    induction hdies with
    | @mk a haL hm hown hrefs hlost ih =>
      by_contra haD
      have hsub : D.toFinset ⊆ L := fun x hx => h.sub x (List.mem_toFinset.1 hx)
      have hD (u : V) (hu : u ∈ L) (hau : a ∈ kids u) : u ∈ D.toFinset :=
        List.mem_toFinset.2 (ih u hu hau hu)
      have h0 : refs kids (L \ D.toFinset) a = 0 := refs_eq_zero.2 fun u hu hau =>
        (Finset.mem_sdiff.1 hu).2 (hD u (Finset.mem_sdiff.1 hu).1 hau)
      have hpos : 0 < l.count a + refs kids D.toFinset a := by
        rcases hlost with hpos | ⟨u, hu, hau⟩
        · omega
        · have := refs_pos.2 ⟨u, hD u hu hau, hau⟩
          omega
      have := h.left a haL haD hm hpos
      omega

lemma nil : Cascade kids mortal L own [] [] :=
  ⟨by simp, by simp, by simp, by simp, by simp, by simp, by simp, by simp, by simp⟩

/-- Only the number of references dropped matters. -/
lemma congr (h : Cascade kids mortal L own l D) (hl : ∀ a, l.count a = l₁.count a) :
    Cascade kids mortal L own l₁ D :=
  ⟨h.nodup, h.sub, h.hm, fun a ha => (h.dropped a ha).trans (hl a), h.closed,
    fun a ha => hl a ▸ h.lost a ha, fun a ha haD hm hpos => hl a ▸ h.left a ha haD hm (hl a ▸ hpos),
    h.self, h.order⟩

/-- References are dropped one after the other. -/
lemma append (h₁ : Cascade kids mortal L own l₁ D₁)
    (h₂ : Cascade kids mortal (L \ D₁.toFinset) own' l₂ D₂)
    (hown : ∀ a, own' a = own a - l₁.count a) (hle : ∀ a, l₁.count a + l₂.count a ≤ own a) :
    Cascade kids mortal L own (l₁ ++ l₂) (D₁ ++ D₂) := by
  have hsub₁ : D₁.toFinset ⊆ L := fun x hx => h₁.sub x (List.mem_toFinset.1 hx)
  have hsub₂ : D₂.toFinset ⊆ L \ D₁.toFinset := fun x hx => h₂.sub x (List.mem_toFinset.1 hx)
  have hL₂ (a : V) (ha : a ∈ D₂) : a ∈ L ∧ a ∉ D₁ := by
    simpa using h₂.sub a ha
  have hdis : Disjoint D₁.toFinset D₂.toFinset := Finset.disjoint_left.2 fun a ha ha' =>
    (hL₂ a (List.mem_toFinset.1 ha')).2 (List.mem_toFinset.1 ha)
  have hunion (a : V) : refs kids (D₁ ++ D₂).toFinset a =
      refs kids D₁.toFinset a + refs kids D₂.toFinset a := by
    rw [List.toFinset_append, refs_union hdis]
  have hsplit₁ (a : V) := refs_sdiff kids hsub₁ a
  have hsplit₂ (a : V) := refs_sdiff kids hsub₂ a
  have hset : L \ (D₁ ++ D₂).toFinset = (L \ D₁.toFinset) \ D₂.toFinset := by
    rw [List.toFinset_append, ← Finset.sup_eq_union, sdiff_sdiff_left]
  refine ⟨List.nodup_append'.2 ⟨h₁.nodup, h₂.nodup, fun a ha ha' => (hL₂ a ha').2 ha⟩,
    fun a ha => ?_, fun a ha => ?_, fun a ha => ?_, fun a ha => ?_, fun a ha => ?_,
    fun a haL ha hm hpos => ?_, fun a ha => ?_, List.pairwise_append.2 ⟨h₁.order, h₂.order,
    fun a ha b hb hab => (hL₂ b hb).2 (h₁.referrer ha (hL₂ b hb).1 hab)⟩⟩
  · exact (List.mem_append.1 ha).elim (h₁.sub a) fun ha => (hL₂ a ha).1
  · exact (List.mem_append.1 ha).elim (h₁.hm a) (h₂.hm a)
  · have hle := hle a
    rw [List.count_append]
    rcases List.mem_append.1 ha with ha | ha
    · have := h₁.dropped a ha
      omega
    · have := h₂.dropped a ha
      rw [hown] at this
      omega
  · have h1 := hsplit₁ a
    have h2 := hsplit₂ a
    rw [hunion]
    rcases List.mem_append.1 ha with ha | ha
    · have := h₁.closed a ha
      omega
    · have := h₂.closed a ha
      omega
  · rw [List.count_append, hunion]
    rcases List.mem_append.1 ha with ha | ha
    · have := h₁.lost a ha
      omega
    · have := h₂.lost a ha
      omega
  · rw [List.mem_append, not_or] at ha
    rw [List.count_append, hunion] at hpos
    have h1 := hsplit₂ a
    have h2 := h₁.left a haL ha.1 hm
    have h3 := h₂.left a (by simpa using ⟨haL, ha.1⟩) ha.2 hm
    rw [hown] at h3
    rw [List.count_append, hset]
    rcases Nat.eq_zero_or_pos (l₂.count a + refs kids D₂.toFinset a) with h0 | hpos₂
    · have := h2 (by omega)
      omega
    · have := h3 hpos₂
      omega
  · exact (List.mem_append.1 ha).elim (h₁.self a) (h₂.self a)

/-- A reference that is not the last one, or that an immortal element has lost -/
lemma keep (hv : mortal v → 0 < own v - 1 + refs kids L v) : Cascade kids mortal L own [v] [] := by
  refine ⟨by simp, by simp, by simp, by simp, by simp, by simp, fun a _ _ hm hpos => ?_, by simp,
    by simp⟩
  by_cases hav : a = v
  · subst hav
    simpa using hv hm
  · simp [Ne.symm hav] at hpos

/-- The last reference: the references that the element holds are dropped. -/
lemma node (hv : v ∈ L) (hm : mortal v) (hown : own v = 1) (hrefs : refs kids L v = 0)
    (hown' : ∀ a ≠ v, own' a = own a + (kids v).count a)
    (h : Cascade kids mortal (L.erase v) own' (kids v) D) :
    Cascade kids mortal L own [v] (v :: D) := by
  have hno : ∀ u ∈ L, v ∉ kids u := refs_eq_zero.1 hrefs
  have hvD : v ∉ D := fun hvD => Finset.notMem_erase v L (h.sub v hvD)
  have hne (a : V) (ha : a ∈ D) : a ≠ v := fun h => hvD (h ▸ ha)
  have hvD' : v ∉ D.toFinset := fun h => hvD (List.mem_toFinset.1 h)
  have herase (a : V) : refs kids L a = (kids v).count a + refs kids (L.erase v) a := by
    rw [← refs_insert (Finset.notMem_erase v L), Finset.insert_erase hv]
  have hcons (a : V) : refs kids (v :: D).toFinset a =
      (kids v).count a + refs kids D.toFinset a := by rw [List.toFinset_cons, refs_insert hvD']
  have hcount (a : V) (ha : a ≠ v) : [v].count a = 0 := by simp [Ne.symm ha]
  refine ⟨List.nodup_cons.2 ⟨hvD, h.nodup⟩, fun a ha => ?_, fun a ha => ?_, fun a ha => ?_,
    fun a ha => ?_, fun a ha => ?_, fun a haL ha hma hpos => ?_, fun a ha => ?_,
    List.pairwise_cons.2 ⟨fun b hb => hno b (Finset.mem_of_mem_erase (h.sub b hb)), h.order⟩⟩
  · rcases List.mem_cons.1 ha with rfl | ha
    · exact hv
    · exact Finset.mem_of_mem_erase (h.sub a ha)
  · rcases List.mem_cons.1 ha with rfl | ha
    · exact hm
    · exact h.hm a ha
  · rcases List.mem_cons.1 ha with rfl | ha
    · simpa using hown
    · have h1 := h.dropped a ha
      rw [hown' a (hne a ha)] at h1
      rw [hcount a (hne a ha)]
      omega
  · rcases List.mem_cons.1 ha with rfl | ha
    · have hsub : (a :: D).toFinset ⊆ L := fun x hx => by
        rcases List.mem_cons.1 (List.mem_toFinset.1 hx) with rfl | hx
        · exact hv
        · exact Finset.mem_of_mem_erase (h.sub x hx)
      have hle : refs kids _ a ≤ refs kids _ a := refs_mono hsub
      omega
    · rw [herase, hcons, h.closed a ha]
  · rcases List.mem_cons.1 ha with rfl | ha
    · simp
    · have h1 := h.lost a ha
      rw [hcons]
      omega
  · rw [List.mem_cons, not_or] at ha
    have h1 := h.left a (Finset.mem_erase.2 ⟨ha.1, haL⟩) ha.2 hma
      (by rw [hcons, hcount a ha.1] at hpos; omega)
    have hset : L \ (v :: D).toFinset = L.erase v \ D.toFinset := by
      rw [List.toFinset_cons, Finset.sdiff_insert, Finset.erase_sdiff_comm]
    rw [hown' a ha.1] at h1
    rw [hset, hcount a ha.1]
    omega
  · rcases List.mem_cons.1 ha with rfl | ha
    · exact hno a hv
    · exact h.self a ha

end Cascade

end LispMachine.Lib.Dropping
