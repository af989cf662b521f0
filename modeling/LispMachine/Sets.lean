import LispMachine.Object

/-!
The sets of `datastructures.c` as namespaces: trees of pairs, ordered by the keys of the pairs.

The word at `contents 0` of a set points to the root of its tree; the data of a node are the
address of a pair, the contents of a pair those of its key and of its value. The local node of
`avl_find` is at `loc`.
-/

namespace LispMachine.Sets

open LispMachine.Memory LispMachine.AvlCode LispMachine.Heap LispMachine.Object

/-- The words of two objects from the word `i` on. -/
def objCmpLoop (m : Mem) (p₁ p₂ : ℕ) : ℕ → ℕ → ℤ
  | 0, _ => 0
  | n + 1, i =>
    if m (contents p₁ i) < m (contents p₂ i) then 1
    else if m (contents p₂ i) < m (contents p₁ i) then -1
    else objCmpLoop m p₁ p₂ n (i + 1)

/-- `obj_cmp` -/
def objCmp (m : Mem) (p₁ p₂ : ℕ) : ℤ :=
  if m (size p₁) < m (size p₂) then 1
  else if m (size p₂) < m (size p₁) then -1
  else objCmpLoop m p₁ p₂ (m (size p₁)) 0

/-- The object that the data of a node are the address of. -/
def dataPtr (m : Mem) (nd : ℕ) : ℕ := data m nd / 8

/-- `set_cmp` -/
def setCmp : Cmp := fun m node1 node2 => objCmp m (dataPtr m node1) (dataPtr m node2)

/-- `set_keycmp` -/
def setKeycmp : Cmp := fun m pair1 pair2 =>
  objCmp m (m.ptr (contents (dataPtr m pair1) 0)) (m.ptr (contents (dataPtr m pair2) 0))

/-- `set_keyfind_cmp` -/
def setKeyfindCmp : Cmp := fun m kvp key =>
  objCmp m (m.ptr (contents (dataPtr m kvp) 0)) (dataPtr m key)

/-- `pair` -/
def pair (heap cellType : ℕ) (s : HSt) (o₁ o₂ : ℕ) : Option (HSt × ℕ) :=
  (object heap s cellType 2 0 0).bind fun (s, obj) =>
    if obj = 0 then some (s, 0)
    else if o₁ = 0 ∨ o₂ = 0 then none
    else
      let s := s.set (size obj) 2
      let s := s.setPtr (contents obj 0) o₁
      let s := s.setPtr (contents obj 1) o₂
      let s := incRefcount s o₁ 1
      some (incRefcount s o₂ 1, obj)

/-- `avl_insert` -/
def avlInsert (cmp : Cmp) (heap : ℕ) (s : HSt) (tr dt : ℕ) : Option (HSt × ℕ) :=
  (s.alloc heap 4).bind fun (s, node) =>
    if node = 0 then some (s, 1)
    else
      (avlInsertNode cmp s.mem tr node dt).bind fun (m, ret) =>
        let s := { s with mem := m }
        (if ret ≠ 0 then s.free heap node else some s).map fun s => (s, ret)

/-- `set_add` -/
def setAdd (cmp : Cmp) (heap : ℕ) (s : HSt) (set dt : ℕ) : Option (HSt × ℕ) :=
  let s := if dt ≠ 0 then incRefcount s dt 1 else s
  avlInsert cmp heap s (contents set 0) (8 * dt)

/-- `set_add_str_key` -/
def setAddStrKey (heap cellType : ℕ) (s : HSt) (set key val : ℕ) : Option (HSt × ℕ) :=
  (pair heap cellType s key val).bind fun (s, dt) => setAdd setKeycmp heap s set dt

/-- `set_remove_str_key` -/
def setRemoveStrKey (heap loc : ℕ) (s : HSt) (set key : ℕ) : Option (HSt × ℕ) :=
  let tr := contents set 0
  (avlFind setKeyfindCmp s.mem loc tr (8 * key)).bind fun node =>
    if node = 0 then some (s, 0)
    else
      let res := dataPtr s.mem node
      (avlDeleteNode s.mem tr node).bind fun (m, x) =>
        let s := { s with mem := m }
        if x ≠ 0 then (s.free heap x).map fun s => (s, res) else some (s, 0)

/-- `set_get_value` -/
def setGetValue (loc : ℕ) (m : Mem) (set obj : ℕ) : Option ℕ :=
  (avlFind setKeyfindCmp m loc (contents set 0) (8 * obj)).map fun node =>
    if node = 0 then 0 else m.ptr (contents (dataPtr m node) 1)

end LispMachine.Sets
