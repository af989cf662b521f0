import LispMachine.Delete

/-!
The operations that create objects and store references.

What `avl_insert` and `_avl_delete` make of the tree of a set is given: the address of its root and
the tree. That the code makes such trees is `MutateTrees.insert_next` and `remove_next`.
-/

namespace LispMachine.Mutate

open LispMachine.Memory LispMachine.Collect LispMachine.Delete LispMachine.Lib.BalTree
open LispMachine.Object (Types)

/-- An operation on the objects alone -/
def lift (s : St) (r : Option Store.St) : Option St := r.map fun t => { s with toSt := t }

def liftObj (s : St) (r : Option (Store.St × ℕ)) : Option (St × ℕ) :=
  r.map fun (t, obj) => ({ s with toSt := t }, obj)

/-- `object` -/
def object (s : St) (type : ℕ) (contents : List ℕ) : Option (St × ℕ) :=
  liftObj s (Store.object s.toSt type contents)

/-- `++o->refcount` -/
def hold (s : St) (obj : ℕ) : Option St := lift s (s.toSt.incr obj 1)

/-- `--o->refcount` -/
def lower (s : St) (obj : ℕ) : Option St :=
  (s.objs obj).bind fun o => s.setRefcount obj (wsub o.refcount 1)

/-- `o->contents[i] = val` -/
def setWord (s : St) (obj i val : ℕ) : Option St :=
  (s.objs obj).map fun o => { s with toSt := s.toSt.put obj (o.setWord i val) }

variable (ty : Types)

/-- `obj_array` -/
def objArray (s : St) : Option (St × ℕ) := liftObj s (Store.objArray ty s.toSt)

/-- `obj_array_append` -/
def objArrayAppend (s : St) (arr data : ℕ) : Option St :=
  lift s (Store.objArrayAppend s.toSt arr data)

/-- `pair` -/
def pair (s : St) (obj₁ obj₂ : ℕ) : Option (St × ℕ) :=
  (object s ty.cellType []).bind fun (s, obj) =>
  (s.objs obj).bind fun o =>
  let o := { (o.setWord 0 obj₁).setWord 1 obj₂ with size := 2 }
  (hold { s with toSt := s.toSt.put obj o } obj₁).bind fun s => (hold s obj₂).map (·, obj)

/-- `set` -/
def set (s : St) : Option (St × ℕ) := object s ty.setType [0]

/-- The set gets another tree, at this address. -/
def setTree (s : St) (set x : ℕ) (t : BTree ℕ) : Option St :=
  (s.objs set).map fun o =>
    { s with
      toSt := s.toSt.put set (o.setWord 0 x)
      trees := Function.update (Function.update s.trees (o.contents 0) none) x
        (if x = 0 then none else some t) }

/-- `set_add`, when `avl_insert` makes this tree, or finds an equal element. -/
def setAdd (s : St) (set data : ℕ) (tree : Option (ℕ × BTree ℕ)) : Option St :=
  (if data ≠ 0 then hold s data else some s).bind fun s =>
  match tree with
  | none => some s
  | some (x, t) => setTree s set x t

/-- `gc_add` -/
def gcAdd (s : St) (obj : ℕ) : St × Bool :=
  if obj + 8 ∈ s.gcSet then (s, true)
  else ({ s with gcSet := (obj + 8) :: s.gcSet, gcNumAlloced := wadd s.gcNumAlloced 1 }, false)

/-- `new_fn` for this namespace, up to the binding of `sup` -/
def newFnOf (root : List ℕ → ℕ) (n : ℕ) (s : St) (ns args exp : ℕ) : Option (St × ℕ) :=
  (object s ty.functionType []).bind fun (s, _self) =>
  let (s, cond) := gcAdd s _self
  if cond then (objectDelete ty root n s _self).map (·, 0)
  else
    (s.objs _self).bind fun o =>
    let o := { ((o.setWord 0 ns).setWord 1 args).setWord 2 exp with size := 3 }
    (hold { s with toSt := s.toSt.put _self o } ns).bind fun s =>
    (hold s args).bind fun s => (hold s exp).map (·, _self)

end LispMachine.Mutate
