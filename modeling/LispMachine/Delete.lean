import LispMachine.Collect

/-!
The deletion of objects, with the trees of the sets.

The tree of a set is emptied from its root; any element can be there.
-/

namespace LispMachine.Delete

open LispMachine.Memory LispMachine.Collect
open LispMachine.Object (Types)
open LispMachine.Store (Obj)

/-- How the contents of an object are deleted. -/
inductive Part
  | leaf
  | tree
  | items
  | array
  | function
  | other
deriving DecidableEq

variable (ty : Types)

/-- The types that `object_delete` compares with, in this order. -/
def parts : List (ℕ × Part) :=
  [(ty.numType, .leaf), (ty.stringType, .leaf), (ty.bcodeType, .leaf), (ty.setType, .tree),
    (ty.cellType, .items), (ty.subarrayType, .items), (ty.arrayType, .array),
    (ty.functionType, .function)]

def partOf (s : Store.St) (o : Obj) : Option Part := kindFrom .other s o (parts ty)

/-- `_object_delete` -/
def freeObj (s : St) (obj : ℕ) : Option St := (s.toSt.free obj).map fun t => { s with toSt := t }

/-- The loops that delete the contents of an object, for `k` words from the word `i` on. -/
def deleteItems (delete : St → ℕ → Option St) (obj : ℕ) : ℕ → ℕ → St → Option St
  | 0, _, s => some s
  | k + 1, i, s =>
    (s.objs obj).bind fun o => (delete s (o.contents i)).bind (deleteItems delete obj k (i + 1))

/-- The loop of `set_delete`, for a tree of `k` elements. -/
def deleteTree (root : List ℕ → ℕ) (delete : St → ℕ → Option St) : ℕ → List ℕ → St → Option St
  | 0, _, s => some s
  | k + 1, tr, s =>
    let data := rootOf root tr
    (delete s data).bind (deleteTree root delete k (tr.erase data))

/-- `set_delete` -/
def setDelete (root : List ℕ → ℕ) (delete : St → ℕ → Option St) (s : St) (set : ℕ) : Option St :=
  (s.objs set).bind fun o =>
  (s.treeAt (o.contents 0)).bind fun t =>
  (deleteTree root delete (preorder t).length (preorder t) (s.freeTree (o.contents 0))).bind
    (freeObj · set)

/-- `obj_array_delete` -/
def objArrayDelete (delete : St → ℕ → Option St) (s : St) (obj : ℕ) : Option St :=
  (s.objs obj).bind fun o =>
  let arr := o.contents 0
  (s.objs arr).bind fun a =>
  (delete s a.type).bind fun s =>
  (freeObj s obj).bind fun s =>
  (s.objs arr).bind fun a =>
  let refcount := wsub a.refcount 1
  (s.setRefcount arr refcount).bind fun s =>
  if refcount ≠ 0 then some s
  else (deleteItems delete arr a.size 0 s).bind (freeObj · arr)

/-- `object_delete` for an object without references -/
def deleteContents (root : List ℕ → ℕ) (delete : St → ℕ → Option St) (obj : ℕ) (o : Obj) (s : St) :
    Option St :=
  (partOf ty s.toSt o).bind fun
    | .leaf => (freeObj s obj).bind (delete · o.type)
    | .tree => (setDelete root delete s obj).bind (delete · o.type)
    | .items => (deleteItems delete obj o.size 0 s).bind fun s =>
        (freeObj s obj).bind (delete · o.type)
    | .array => (objArrayDelete delete s obj).bind (delete · o.type)
    | .function => some s
    | .other => delete s o.type

/-- `object_delete`, for references that go less than `n` deep -/
def objectDelete (root : List ℕ → ℕ) : ℕ → St → ℕ → Option St
  | 0, _, _ => none
  | n + 1, s, obj =>
    if obj = 0 then some s
    else
      (s.objs obj).bind fun o =>
      let refcount := wsub o.refcount 1
      (s.setRefcount obj refcount).bind fun s =>
      if refcount ≠ 0 then some s
      else deleteContents ty root (objectDelete root n) obj o s

/-- `o_del` -/
def oDel (root : List ℕ → ℕ) (n : ℕ) (s : St) (obj : ℕ) : Option St :=
  (s.objs obj).bind fun o =>
  (s.setRefcount obj (wadd o.refcount 1)).bind fun s => objectDelete ty root n s obj

end LispMachine.Delete
