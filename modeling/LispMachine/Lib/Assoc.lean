import Mathlib.Data.List.Nodup
import Mathlib.Logic.Function.Basic

/-!
Finite maps, listed by their bindings.
-/

namespace LispMachine.Lib.Assoc

variable {α β : Type*}

/-- The list holds the bindings of the map, and each key once. -/
structure Lists (L : List (α × β)) (f : α → Option β) : Prop where
  nodup : (L.map Prod.fst).Nodup
  mem : ∀ k v, f k = some v ↔ (k, v) ∈ L

namespace Lists

variable {L L₁ L₂ : List (α × β)} {f : α → Option β} {k : α} {v : β}

lemma nil : Lists ([] : List (α × β)) fun _ => none :=
  ⟨List.nodup_nil, fun _ _ => by simp⟩

lemma eq_none (h : Lists L f) : f k = none ↔ ∀ e ∈ L, e.1 ≠ k := by
  constructor
  · rintro hk ⟨k', v⟩ he rfl
    have := (h.mem k' v).mpr he
    simp [hk] at this
  · intro hk
    cases hf : f k with
    | none => rfl
    | some v => exact absurd rfl (hk (k, v) ((h.mem k v).mp hf))

variable [DecidableEq α]

/-- A new binding is put anywhere in the list. -/
lemma insert (h : Lists (L₁ ++ L₂) f) (hk : f k = none) :
    Lists (L₁ ++ (k, v) :: L₂) (Function.update f k (some v)) := by
  have hne := h.eq_none.mp hk
  constructor
  · rw [List.map_append, List.map_cons]
    refine List.nodup_middle.mpr (List.nodup_cons.mpr ⟨fun hmem => ?_, ?_⟩)
    · rw [← List.map_append] at hmem
      obtain ⟨e, he, hek⟩ := List.mem_map.mp hmem
      exact hne e he hek
    · rw [← List.map_append]
      exact h.nodup
  · intro k' v'
    have hmem : (k', v') ∈ L₁ ++ (k, v) :: L₂ ↔ (k', v') = (k, v) ∨ (k', v') ∈ L₁ ++ L₂ := by
      simp only [List.mem_append, List.mem_cons]
      tauto
    rw [hmem]
    by_cases hk' : k' = k
    · subst hk'
      have : (k', v') ∉ L₁ ++ L₂ := fun he => hne _ he rfl
      simp [this, eq_comm]
    · rw [Function.update_of_ne hk', h.mem]
      simp [hk']

/-- A binding is taken out of the list. -/
lemma erase (h : Lists (L₁ ++ (k, v) :: L₂) f) :
    Lists (L₁ ++ L₂) (Function.update f k none) := by
  have hnd := h.nodup
  rw [List.map_append, List.map_cons, List.nodup_middle, ← List.map_append] at hnd
  obtain ⟨hk, hnd⟩ := List.nodup_cons.mp hnd
  refine ⟨hnd, fun k' v' => ?_⟩
  by_cases hk' : k' = k
  · subst hk'
    rw [Function.update_self]
    exact iff_of_false (by simp) fun he => hk (List.mem_map.mpr ⟨_, he, rfl⟩)
  · rw [Function.update_of_ne hk', h.mem]
    simp [hk']

end Lists

end LispMachine.Lib.Assoc
