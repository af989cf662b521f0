import Mathlib.Logic.Relation

/-!
Links from one thing to the next: a link that leads to nothing linked back leaves every chain of
links with an end.
-/

namespace LispMachine.Lib.Links

open Relation

variable {α : Type*} {r r' : α → α → Prop} {x : α}

/-- Every chain of links from `a` on comes to an end. -/
def Ends (r : α → α → Prop) (a : α) : Prop := Acc (fun b a => r a b) a

lemma Ends.intro {a : α} (h : ∀ b, r a b → Ends r b) : Ends r a := Acc.intro a h

/-- The links that are left have shorter chains. -/
lemma Ends.mono (hr : ∀ a b, r' a b → r a b) {a : α} (h : Ends r a) : Ends r' a := by
  induction h with
  | intro a _ ih => exact .intro fun b hb => ih b (hr a b hb)

/-- No chain that ends leads back to where it started. -/
lemma Ends.not_back {a b : α} (h : Ends r a) (hab : r a b) : ¬ ReflTransGen r b a := by
  induction h generalizing b with
  | intro a _ ih =>
    intro hba
    rcases hba.cases_head with rfl | ⟨c, hbc, hca⟩
    · exact ih b hab hab .refl
    · exact ih b hab hbc (hca.tail hab)

/-- What does not lead to `x` keeps its chains when only the links of `x` change. -/
lemma Ends.avoid (hr : ∀ a b, a ≠ x → r' a b → r a b) {a : α} (h : Ends r a)
    (ha : ¬ ReflTransGen r a x) : Ends r' a := by
  induction h with
  | intro a _ ih =>
    have hax : a ≠ x := by
      rintro rfl
      exact ha .refl
    refine .intro fun b hb => ih b (hr a b hax hb) fun hbx => ha ?_
    exact .head (hr a b hax hb) hbx

/-- **Relinking**: every chain still ends when `x` is linked anew to what does not lead to `x`. -/
theorem ends_relink (hr : ∀ a b, a ≠ x → r' a b → r a b)
    (hx : ∀ b, r' x b → ¬ ReflTransGen r b x) (h : ∀ a, Ends r a) (a : α) : Ends r' a := by
  have hends : Ends r' x := .intro fun b hb => (h b).avoid hr (hx b hb)
  induction h a with
  | intro a _ ih =>
    by_cases hax : a = x
    · exact hax ▸ hends
    · exact .intro fun b hb => ih b (hr a b hax hb)

end LispMachine.Lib.Links
