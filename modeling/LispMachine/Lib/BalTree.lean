import Mathlib.Data.List.Basic
import Mathlib.Tactic.Ring
import Mathlib.Tactic.Linarith

/-!
Height-balanced binary trees that record the balance of every node, and paths into them.

A path is the list of the steps taken from a hole up to the root; filling the hole gives a
tree back. Every node is described relative to a direction, so that what is proved about
one side of a tree holds for the mirrored side as well.
-/

namespace LispMachine.Lib.BalTree

inductive Dir | L | R
  deriving DecidableEq, Repr

namespace Dir

def flip : Dir → Dir
  | L => R
  | R => L

/-- The balance of a node whose subtree in this direction is one higher. -/
def sgn : Dir → ℤ
  | L => -1
  | R => 1

@[simp] lemma flip_flip (d : Dir) : d.flip.flip = d := by cases d <;> rfl
@[simp] lemma sgn_flip (d : Dir) : d.flip.sgn = -d.sgn := by cases d <;> rfl
@[simp] lemma flip_L : L.flip = R := rfl
@[simp] lemma flip_R : R.flip = L := rfl
@[simp] lemma sgn_L : L.sgn = -1 := rfl
@[simp] lemma sgn_R : R.sgn = 1 := rfl

lemma sgn_ne_zero (d : Dir) : d.sgn ≠ 0 := by cases d <;> decide

end Dir

/-- A binary tree; `b` is the recorded balance of the node that holds `a`. -/
inductive BTree (α : Type*) where
  | nil
  | node (b : ℤ) (l : BTree α) (a : α) (r : BTree α)

variable {α : Type*}

namespace BTree

def height : BTree α → ℕ
  | nil => 0
  | node _ l _ r => max l.height r.height + 1

/-- The in-order traversal. -/
def toList : BTree α → List α
  | nil => []
  | node _ l a r => l.toList ++ a :: r.toList

/-- The recorded balance at the root, zero for the empty tree. -/
def bal : BTree α → ℤ
  | nil => 0
  | node b _ _ _ => b

/-- Every recorded balance is the height of the right subtree less that of the left one, and
lies between `-1` and `1`. -/
def Balanced : BTree α → Prop
  | nil => True
  | node b l _ r =>
    l.Balanced ∧ r.Balanced ∧ b = (r.height : ℤ) - l.height ∧ -1 ≤ b ∧ b ≤ 1

/-- The node holding `a` whose subtree in direction `d` is `c` and whose other one is `s`. -/
def dnode : Dir → ℤ → BTree α → α → BTree α → BTree α
  | .L, b, c, a, s => node b c a s
  | .R, b, c, a, s => node b s a c

@[simp] lemma height_nil : (nil : BTree α).height = 0 := rfl
@[simp] lemma toList_nil : (nil : BTree α).toList = [] := rfl
@[simp] lemma bal_nil : (nil : BTree α).bal = 0 := rfl
@[simp] lemma balanced_nil : (nil : BTree α).Balanced := trivial

lemma dnode_flip (d : Dir) (b : ℤ) (c : BTree α) (a : α) (s : BTree α) :
    dnode d.flip b c a s = dnode d b s a c := by cases d <;> rfl

lemma exists_dnode {t : BTree α} (d : Dir) (h : t ≠ nil) : ∃ b c a s, t = dnode d b c a s := by
  cases t with
  | nil => exact absurd rfl h
  | node b l a r =>
    cases d
    · exact ⟨b, l, a, r, rfl⟩
    · exact ⟨b, r, a, l, rfl⟩

@[simp] lemma dnode_ne_nil (d : Dir) (b : ℤ) (c : BTree α) (a : α) (s : BTree α) :
    dnode d b c a s ≠ nil := by cases d <;> simp [dnode]

@[simp] lemma height_dnode (d : Dir) (b : ℤ) (c : BTree α) (a : α) (s : BTree α) :
    (dnode d b c a s).height = max c.height s.height + 1 := by
  cases d <;> simp [dnode, height, max_comm]

@[simp] lemma bal_dnode (d : Dir) (b : ℤ) (c : BTree α) (a : α) (s : BTree α) :
    (dnode d b c a s).bal = b := by cases d <;> rfl

/-- The recorded balance does not show in the traversal. -/
lemma toList_dnode_bal (d : Dir) (b b' : ℤ) (c : BTree α) (a : α) (s : BTree α) :
    (dnode d b c a s).toList = (dnode d b' c a s).toList := by cases d <;> rfl

lemma balanced_dnode (d : Dir) (b : ℤ) (c : BTree α) (a : α) (s : BTree α) :
    (dnode d b c a s).Balanced ↔ c.Balanced ∧ s.Balanced ∧
      b = d.sgn * ((c.height : ℤ) - s.height) ∧ -1 ≤ b ∧ b ≤ 1 := by
  cases d with
  | L => simp [dnode, Balanced]
  | R => simp [dnode, Balanced]; tauto

lemma height_eq_zero {t : BTree α} : t.height = 0 ↔ t = nil := by
  cases t <;> simp [height]

lemma height_le_length (t : BTree α) : t.height ≤ t.toList.length := by
  induction t with
  | nil => simp
  | node b l a r ihl ihr => simp [height, toList]; omega

end BTree

open BTree

/-! ### Paths -/

/-- One step up from a hole: the hole is the subtree in direction `dir` of the node that holds
`val` with recorded balance `bal`, and `sib` is its other subtree. -/
structure Step (α : Type*) where
  dir : Dir
  bal : ℤ
  val : α
  sib : BTree α

/-- The steps from a hole up to the root, the nearest one first. -/
abbrev Path (α : Type*) := List (Step α)

def Step.fill (s : Step α) (t : BTree α) : BTree α := dnode s.dir s.bal t s.val s.sib

namespace Path

def fill : Path α → BTree α → BTree α
  | [], t => t
  | s :: π, t => fill π (s.fill t)

/-- The values that come before the hole in order. -/
def before : Path α → List α
  | [] => []
  | ⟨.L, _, _, _⟩ :: π => before π
  | ⟨.R, _, a, s⟩ :: π => before π ++ (s.toList ++ [a])

/-- The values that come after the hole in order. -/
def after : Path α → List α
  | [] => []
  | ⟨.L, _, a, s⟩ :: π => (a :: s.toList) ++ after π
  | ⟨.R, _, _, _⟩ :: π => after π

/-- The path is balanced when its hole is taken to have height `h`. -/
def Balanced : Path α → ℕ → Prop
  | [], _ => True
  | s :: π, h => s.sib.Balanced ∧ s.bal = s.dir.sgn * ((h : ℤ) - s.sib.height) ∧
      -1 ≤ s.bal ∧ s.bal ≤ 1 ∧ Balanced π (max h s.sib.height + 1)

@[simp] lemma fill_nil (t : BTree α) : fill [] t = t := rfl
@[simp] lemma fill_cons (s : Step α) (π : Path α) (t : BTree α) :
    fill (s :: π) t = fill π (s.fill t) := rfl
@[simp] lemma before_nil : before ([] : Path α) = [] := rfl
@[simp] lemma after_nil : after ([] : Path α) = [] := rfl
@[simp] lemma balanced_nil (h : ℕ) : Balanced ([] : Path α) h := trivial

lemma fill_append (ρ π : Path α) (t : BTree α) : fill (ρ ++ π) t = fill π (fill ρ t) := by
  induction ρ generalizing t with
  | nil => rfl
  | cons s ρ ih => exact ih _

lemma before_append (ρ π : Path α) : before (ρ ++ π) = before π ++ before ρ := by
  induction ρ with
  | nil => simp
  | cons s ρ ih =>
    obtain ⟨d, b, a, s⟩ := s
    cases d <;> simp [before, ih]

lemma after_append (ρ π : Path α) : after (ρ ++ π) = after ρ ++ after π := by
  induction ρ with
  | nil => rfl
  | cons s ρ ih =>
    obtain ⟨d, b, a, s⟩ := s
    cases d <;> simp [after, ih]

lemma toList_fill (π : Path α) (t : BTree α) :
    (fill π t).toList = before π ++ t.toList ++ after π := by
  induction π generalizing t with
  | nil => simp
  | cons s π ih =>
    obtain ⟨d, b, a, s⟩ := s
    cases d <;> simp [Step.fill, ih, before, after, dnode, toList]

lemma toList_congr (π : Path α) {t t' : BTree α} (h : t.toList = t'.toList) :
    (fill π t).toList = (fill π t').toList := by
  rw [toList_fill, toList_fill, h]

lemma balanced_fill {π : Path α} {t : BTree α} (ht : t.Balanced) (hπ : Balanced π t.height) :
    (fill π t).Balanced := by
  induction π generalizing t with
  | nil => exact ht
  | cons s π ih =>
    obtain ⟨hs, hb, h1, h2, hπ⟩ := hπ
    exact ih ((balanced_dnode ..).mpr ⟨ht, hs, hb, h1, h2⟩) (by simpa [Step.fill] using hπ)

lemma balanced_of_fill {π : Path α} {t : BTree α} (h : (fill π t).Balanced) :
    t.Balanced ∧ Balanced π t.height := by
  induction π generalizing t with
  | nil => exact ⟨h, trivial⟩
  | cons s π ih =>
    obtain ⟨h1, h2⟩ := ih h
    obtain ⟨hc, hs, hb, hl, hr⟩ := (balanced_dnode ..).mp h1
    exact ⟨hc, hs, hb, hl, hr, by simpa [Step.fill] using h2⟩

/-- The balance of a path does not depend on its values. -/
lemma balanced_set_val {ρ π : Path α} {d : Dir} {b : ℤ} {a a' : α} {s : BTree α} {h : ℕ}
    (hb : Balanced (ρ ++ ⟨d, b, a, s⟩ :: π) h) : Balanced (ρ ++ ⟨d, b, a', s⟩ :: π) h := by
  induction ρ generalizing h with
  | nil => exact hb
  | cons s ρ ih =>
    obtain ⟨h1, h2, h3, h4, h5⟩ := hb
    exact ⟨h1, h2, h3, h4, ih h5⟩

lemma length_le (π : Path α) (t : BTree α) : π.length + t.height ≤ (fill π t).height := by
  induction π generalizing t with
  | nil => simp
  | cons s π ih =>
    have := ih (s.fill t)
    simp [Step.fill] at this ⊢
    omega

lemma fill_eq_nil {π : Path α} {t : BTree α} (h : fill π t = nil) : π = [] ∧ t = nil := by
  have := length_le π t
  rw [h, height_nil] at this
  exact ⟨List.length_eq_zero_iff.mp (by omega), height_eq_zero.mp (by omega)⟩

/-- Every value of a tree is at the end of a path. -/
lemma exists_fill {t : BTree α} {a : α} (h : a ∈ t.toList) :
    ∃ π b l r, t = fill π (.node b l a r) := by
  induction t with
  | nil => simp at h
  | node b l a' r ihl ihr =>
    simp only [toList, List.mem_append, List.mem_cons] at h
    rcases h with h | rfl | h
    · obtain ⟨π, b', l', r', hl⟩ := ihl h
      exact ⟨π ++ [⟨.L, b, a', r⟩], b', l', r', by rw [fill_append, ← hl]; rfl⟩
    · exact ⟨[], b, l, r, rfl⟩
    · obtain ⟨π, b', l', r', hr⟩ := ihr h
      exact ⟨π ++ [⟨.R, b, a', l⟩], b', l', r', by rw [fill_append, ← hr]; rfl⟩

end Path

/-! ### Rotations -/

/-- Lifting the subtree in direction `d` above the root. -/
lemma toList_rotate (d : Dir) (b bq b₀ b₁ : ℤ) (C B A : BTree α) (q a : α) :
    (dnode d b (dnode d bq C q B) a A).toList = (dnode d b₁ C q (dnode d b₀ B a A)).toList := by
  cases d <;> simp [dnode, toList]

/-- Lifting the inner grandchild of direction `d` above the root. -/
lemma toList_rotate2 (d : Dir) (b bc bg b₀ b₁ b₂ : ℤ) (B₁ B₂ C A : BTree α) (g c a : α) :
    (dnode d b (dnode d.flip bc (dnode d.flip bg B₁ g B₂) c C) a A).toList =
      (dnode d b₂ (dnode d.flip b₁ B₂ c C) g (dnode d b₀ B₁ a A)).toList := by
  cases d <;> simp [dnode, toList]

end LispMachine.Lib.BalTree
