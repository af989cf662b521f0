import Mathlib.Logic.Relation

/-!
Systems that take one step after another, the states they reach, and invariants.
-/

namespace LispMachine.Lib.Run

variable {σ : Type*}

/-- A system is given by its initial states and its steps. -/
structure System (σ : Type*) where
  init : σ → Prop
  step : σ → σ → Prop

namespace System

/-- The states of the runs of a system. -/
inductive Reachable (S : System σ) : σ → Prop
  | init {s : σ} (h : S.init s) : Reachable S s
  | step {s s' : σ} (h : Reachable S s) (hs : S.step s s') : Reachable S s'

/-- What holds at first and is kept by every step from a reachable state. -/
structure Invariant (S : System σ) (I : σ → Prop) : Prop where
  init : ∀ s, S.init s → I s
  step : ∀ s s', I s → S.step s s' → I s'

/-- **Invariants** hold in every state of every run. -/
theorem Invariant.reachable {S : System σ} {I : σ → Prop} (hI : S.Invariant I) {s : σ}
    (h : S.Reachable s) : I s := by
  induction h with
  | init h => exact hI.init _ h
  | step _ hs ih => exact hI.step _ _ ih hs

end System

end LispMachine.Lib.Run
