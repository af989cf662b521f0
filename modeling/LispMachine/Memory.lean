import Mathlib.Data.Nat.Bitwise
import Mathlib.Logic.Function.Basic
import Mathlib.Tactic.Ring
import Mathlib.Tactic.Linarith

/-!
The machine's memory, seen as an array of 64-bit words.

A pointer to a word is the index of that word, so that pointer arithmetic reads as it does in
the source; cast to a word, as it is when it is stored, it is the byte address, eight times
the index. The null pointer is the index `0`.
-/

namespace LispMachine.Memory

/-- The number of values a machine word takes. -/
def wordMod : ℕ := 2 ^ 64

/-- The number of words in the address space. -/
def addrSpace : ℕ := 2 ^ 61

/-- The contents of every word. -/
abbrev Mem := ℕ → ℕ

def Mem.set (m : Mem) (a v : ℕ) : Mem := fun x => if x = a then v else m x

/-- The pointer stored in the word `a`. -/
def Mem.ptr (m : Mem) (a : ℕ) : ℕ := m a / 8

/-- Storing a pointer. -/
def Mem.setPtr (m : Mem) (a p : ℕ) : Mem := m.set a (8 * p)

@[simp] lemma set_self (m : Mem) (a v : ℕ) : m.set a v a = v := by simp [Mem.set]
lemma set_apply (m : Mem) (a v x : ℕ) : m.set a v x = if x = a then v else m x := rfl
lemma set_ne (m : Mem) {a x : ℕ} (v : ℕ) (h : x ≠ a) : m.set a v x = m x := by
  simp [Mem.set, h]
lemma setPtr_apply (m : Mem) (a p x : ℕ) :
    m.setPtr a p x = if x = a then 8 * p else m x := rfl
@[simp] lemma setPtr_self (m : Mem) (a p : ℕ) : m.setPtr a p a = 8 * p := by
  simp [Mem.setPtr]
lemma setPtr_ne (m : Mem) {a x : ℕ} (p : ℕ) (h : x ≠ a) : m.setPtr a p x = m x :=
  set_ne m _ h

lemma ptr_of_eq {m : Mem} {a p : ℕ} (h : m a = 8 * p) : m.ptr a = p := by
  simp [Mem.ptr, h]

/-- The pointer `n` words after `p`, and the one `n` words before it. -/
def padd (p n : ℕ) : ℕ := (p + n) % addrSpace
def psub (p n : ℕ) : ℕ := (p + addrSpace - n % addrSpace) % addrSpace

/-- Addition and subtraction of words. -/
def wadd (x y : ℕ) : ℕ := (x + y) % wordMod
def wsub (x y : ℕ) : ℕ := (x + wordMod - y % wordMod) % wordMod

/-- A word shifted to the left, and its complement. -/
def wshl (x n : ℕ) : ℕ := (x <<< n) % wordMod
def wnot (x : ℕ) : ℕ := wordMod - 1 - x

lemma padd_eq {p n : ℕ} (h : p + n < addrSpace) : padd p n = p + n := Nat.mod_eq_of_lt h
lemma wadd_eq {x y : ℕ} (h : x + y < wordMod) : wadd x y = x + y := Nat.mod_eq_of_lt h

lemma psub_eq {p n : ℕ} (h : n ≤ p) (hp : p < addrSpace) : psub p n = p - n := by
  unfold psub
  rw [Nat.mod_eq_of_lt (by omega : n < addrSpace), show p + addrSpace - n = p - n + addrSpace by
    omega, Nat.add_mod_right, Nat.mod_eq_of_lt (by omega)]

lemma wsub_eq {x y : ℕ} (h : y ≤ x) (hx : x < wordMod) : wsub x y = x - y := by
  unfold wsub
  rw [Nat.mod_eq_of_lt (by omega : y < wordMod), show x + wordMod - y = x - y + wordMod by
    omega, Nat.add_mod_right, Nat.mod_eq_of_lt (by omega)]

/-- A pointer with a two-bit tag in its low bits: `(word)p | t`. -/
def tagged (p t : ℕ) : ℕ := 8 * p ||| t

lemma or_tag {k t : ℕ} (h : t < 4) : 4 * k ||| t = 4 * k + t :=
  (Nat.two_pow_add_eq_or_of_lt (i := 2) h k).symm

lemma tagged_eq {p t : ℕ} (h : t < 4) : tagged p t = 8 * p + t := by
  have := or_tag (k := 2 * p) h
  rw [tagged, show 8 * p = 4 * (2 * p) by ring, this]

lemma and_three (x : ℕ) : x &&& 3 = x % 4 := Nat.and_two_pow_sub_one_eq_mod x 2

/-- The characters of a string, one a word. -/
def chars (str : String) : List ℕ := str.toList.map Char.toNat

end LispMachine.Memory
