import LispMachine.Store
import LispMachine.Lib.BalTree

/-!
The cycle collector.

The word that counts the references of an object has three parts: the count, a temporary count and
a mark. The tree of a set is kept with the address of its root; a tree of addresses is the list of
them, in the order in which `_gc_collect` comes to them, and any of them can be at its root. The
links of a queue, the nodes of these trees and their blocks are left out: there is memory for them.
-/

namespace LispMachine.Collect

open LispMachine.Memory LispMachine.Lib.BalTree
open LispMachine.Object (Types)
open LispMachine.Store (Obj isType objectDelete)

/-! ### The counts -/

/-- `refcount_mask` -/
def refcountMask : ℕ := (wordMod - 1) >>> 32

/-- `visited_mask` -/
def visitedMask : ℕ := 2 ^ 63

/-- `get_rc` -/
def getRc (refcount : ℕ) : ℕ := refcount &&& refcountMask

/-- `get_tmp_rc` -/
def getTmpRc (refcount : ℕ) : ℕ := (refcount &&& wnot visitedMask) >>> 32

/-- `set_tmp_rc` -/
def setTmpRc (refcount val : ℕ) : ℕ := refcount &&& (refcountMask ||| visitedMask) ||| wshl val 32

/-- `visited` -/
def visited (refcount : ℕ) : Bool := refcount &&& visitedMask ≠ 0

/-- `set_visited` -/
def setVisited (refcount val : ℕ) : ℕ := refcount &&& (wordMod - 1) >>> 1 ||| wshl val 63

/-! ### The heap -/

/-- The objects, the trees of the sets, and the functions that are registered. -/
structure St extends Store.St where
  trees : ℕ → Option (BTree ℕ)
  gcSet : List ℕ
  gcNumAlloced : ℕ

namespace St

/-- The word that counts the references of an object is written. -/
def setRefcount (s : St) (obj w : ℕ) : Option St :=
  (s.objs obj).map fun o => { s with toSt := s.toSt.put obj { o with refcount := w } }

/-- The tree at an address -/
def treeAt (s : St) (tree : ℕ) : Option (BTree ℕ) := if tree = 0 then some .nil else s.trees tree

/-- The nodes of a tree are freed. -/
def freeTree (s : St) (tree : ℕ) : St := { s with trees := Function.update s.trees tree none }

end St

/-- The data of a tree, a node before what is below it. -/
def preorder : BTree ℕ → List ℕ
  | .nil => []
  | .node _ left data right => data :: (preorder left ++ preorder right)

/-- What an object refers to with its contents. -/
inductive Kind
  | leaf
  | tree
  | items
  | array
  | other
deriving DecidableEq

variable (ty : Types)

/-- The types that `_mark_tc` and `sweep` compare with, in this order. -/
def kinds : List (ℕ × Kind) :=
  [(ty.stringType, .leaf), (ty.numType, .leaf), (ty.bcodeType, .leaf), (ty.setType, .tree),
    (ty.cellType, .items), (ty.functionType, .items), (ty.subarrayType, .items),
    (ty.arrayType, .array)]

/-- What goes with the first type that is the type of the object, or `k₀`. -/
def kindFrom {α : Type} (k₀ : α) (s : Store.St) (o : Obj) : List (ℕ × α) → Option α
  | [] => some k₀
  | (type, k) :: l => (isType s o type).bind fun b => if b then some k else kindFrom k₀ s o l

def kindOf (s : Store.St) (o : Obj) : Option Kind := kindFrom .other s o (kinds ty)

/-- The element at the root of a tree of these elements -/
def rootOf (root : List ℕ → ℕ) (tr : List ℕ) : ℕ := tr.getD (root tr % tr.length) 0

/-! ### Marking -/

/-- `mark_tc_tr` -/
def markTcTr (mark : St × List ℕ → ℕ → Option (St × List ℕ)) :
    BTree ℕ → St × List ℕ → Option (St × List ℕ)
  | .nil, w => some w
  | .node _ left data right, w =>
    (mark w data).bind fun w => (markTcTr mark left w).bind (markTcTr mark right)

/-- The loop of `_mark_tc`, for `k` words from the word `i` on. -/
def markItems (mark : St × List ℕ → ℕ → Option (St × List ℕ)) (obj : ℕ) :
    ℕ → ℕ → St × List ℕ → Option (St × List ℕ)
  | 0, _, w => some w
  | k + 1, i, w =>
    (w.1.objs obj).bind fun o =>
    (mark w (o.contents i)).bind (markItems mark obj k (i + 1))

/-- `_mark_tc` for the contents of an object -/
def markContents (mark : St × List ℕ → ℕ → Option (St × List ℕ)) (obj : ℕ) (o : Obj)
    (w : St × List ℕ) : Option (St × List ℕ) :=
  (kindOf ty w.1.toSt o).bind fun
    | .leaf => some w
    | .tree => (w.1.treeAt (o.contents 0)).bind fun t => markTcTr mark t w
    | .items => markItems mark obj o.size 0 w
    | .array => mark w (o.contents 0)
    | .other => some w

/-- `_mark_tc`, for references that go less than `n` deep; `queue_push` puts its element first. -/
def markTcObj (cond : Bool) : ℕ → St × List ℕ → ℕ → Option (St × List ℕ)
  | 0, _, _ => none
  | n + 1, (s, q), obj =>
    if obj = 0 then some (s, q)
    else
      (s.objs obj).bind fun o =>
      if cond && visited o.refcount then
        (s.setRefcount obj (setTmpRc o.refcount (getTmpRc o.refcount + 1))).map (·, q)
      else if !cond && !visited o.refcount then some (s, q)
      else
        let refcount := setTmpRc (setVisited o.refcount cond.toNat) cond.toNat
        (s.setRefcount obj refcount).bind fun s =>
        markContents ty (markTcObj cond n) obj o (s, if cond then obj :: q else q)

/-- `mark_tc` -/
def markTc (cond : Bool) (n : ℕ) (w : St × List ℕ) (obj : ℕ) : Option (St × List ℕ) :=
  (markTcObj ty cond n w obj).bind fun (s, q) =>
  if cond then
    (s.objs obj).bind fun o =>
      (s.setRefcount obj (setTmpRc o.refcount (wsub (getTmpRc o.refcount) 1))).map (·, q)
  else some (s, q)

/-- The loop that pops the queue, on which unmarking puts nothing. -/
def unmarkHeld (n : ℕ) : List ℕ → St → Option St
  | [], s => some s
  | obj :: q, s =>
    (s.objs obj).bind fun o =>
    if getTmpRc o.refcount < getRc o.refcount then
      (markTc ty false n (s, q) obj).bind fun (s, _) => unmarkHeld n q s
    else unmarkHeld n q s

/-! ### Sweeping -/

/-- `decrease_refcs` -/
def decreaseRefcs (s : St) (obj : ℕ) : Option St :=
  if obj = 0 then some s
  else (s.objs obj).bind fun o => s.setRefcount obj (wsub o.refcount 1)

/-- A reference is dropped and what it leads to is swept, in the heap and the tree of what is swept
already, with the sum of what the calls return. -/
def sweepItem (sweep : St × List ℕ → ℕ → Option ((St × List ℕ) × ℕ)) (data : ℕ)
    (w : (St × List ℕ) × ℕ) : Option ((St × List ℕ) × ℕ) :=
  (decreaseRefcs w.1.1 data).bind fun s =>
  (sweep (s, w.1.2) data).map fun (w', ret) => (w', w.2 + ret)

/-- `sweep_tr` -/
def sweepTr (sweep : St × List ℕ → ℕ → Option ((St × List ℕ) × ℕ)) :
    BTree ℕ → (St × List ℕ) × ℕ → Option ((St × List ℕ) × ℕ)
  | .nil, w => some w
  | .node _ left data right, w =>
    (sweepItem sweep data w).bind fun w => (sweepTr sweep left w).bind (sweepTr sweep right)

/-- The loop of `sweep`, for `k` words from the word `i` on. -/
def sweepItems (sweep : St × List ℕ → ℕ → Option ((St × List ℕ) × ℕ)) (obj : ℕ) :
    ℕ → ℕ → (St × List ℕ) × ℕ → Option ((St × List ℕ) × ℕ)
  | 0, _, w => some w
  | k + 1, i, w =>
    (w.1.1.objs obj).bind fun o =>
    (sweepItem sweep (o.contents i) w).bind (sweepItems sweep obj k (i + 1))

/-- `sweep` for the contents of an object -/
def sweepContents (sweep : St × List ℕ → ℕ → Option ((St × List ℕ) × ℕ)) (obj : ℕ) (o : Obj)
    (w : St × List ℕ) : Option ((St × List ℕ) × ℕ) :=
  (kindOf ty w.1.toSt o).bind fun
    | .leaf => some (w, 1)
    | .tree => (w.1.treeAt (o.contents 0)).bind fun t =>
        sweepTr sweep t ((w.1.freeTree (o.contents 0), w.2), 0)
    | .items => sweepItems sweep obj o.size 0 (w, 0)
    | .array => sweepItem sweep (o.contents 0) (w, 0)
    | .other => some (w, 0)

/-- `sweep`, for references that go less than `n` deep -/
def sweep : ℕ → St × List ℕ → ℕ → Option ((St × List ℕ) × ℕ)
  | 0, _, _ => none
  | n + 1, (s, tr), obj =>
    if obj = 0 then some ((s, tr), 0)
    else
      (s.objs obj).bind fun o =>
      if !visited o.refcount then some ((s, tr), 0)
      else if obj ∈ tr then some ((s, tr), 0)
      else (sweepContents ty (sweep n) obj o (s, obj :: tr)).map fun (w, ret) => (w, ret + 1)

/-! ### Collecting -/

section Collect

variable (setDelete : Store.St → ℕ → Option Store.St) (root : List ℕ → ℕ)

/-- An object that was swept is freed: the registered functions are at the address of the word
behind the first one. -/
def release (n : ℕ) (s : St) (obj : ℕ) : Option St :=
  let s := if obj + 8 ∈ s.gcSet then
      { s with gcSet := s.gcSet.erase (obj + 8), gcNumAlloced := wsub s.gcNumAlloced 1 }
    else s
  (s.objs obj).bind fun o =>
  (objectDelete ty setDelete n s.toSt o.type).bind fun t =>
  (t.free obj).map fun t => { s with toSt := t }

/-- The loop that empties the tree of what was swept, of `k` elements. -/
def releaseLoop (n : ℕ) : ℕ → List ℕ → St → Option St
  | 0, _, s => some s
  | k + 1, refuse, s =>
    let obj := rootOf root refuse
    (release ty setDelete n s obj).bind (releaseLoop n k (refuse.erase obj))

/-- `_gc_collect`: the registered functions that have a type are pushed. -/
def gcRoots (s : St) : List ℕ → List ℕ → Option (List ℕ)
  | [], q => some q
  | data :: l, q =>
    (s.objs (data - 8)).bind fun o => gcRoots s l (if o.type ≠ 0 then (data - 8) :: q else q)

/-- What is only reached from `data`, and not held from elsewhere, is swept. -/
def collectFrom (n : ℕ) (s : St) (refuse : List ℕ) (data : ℕ) : Option ((St × List ℕ) × ℕ) :=
  (markTc ty true n (s, []) data).bind fun (s, q) =>
  (unmarkHeld ty n q s).bind fun s =>
  sweep ty n (s, refuse) data

/-- The loop of `gc_collect` -/
def collectLoop (n : ℕ) : List ℕ → St × List ℕ → Option (St × List ℕ)
  | [], w => some w
  | data :: q, (s, refuse) =>
    if data + 8 ∈ s.gcSet then
      (collectFrom ty n s refuse data).bind fun (w, _) => collectLoop n q w
    else collectLoop n q (s, refuse)

/-- `gc_collect` -/
def gcCollect (n : ℕ) (s : St) : Option St :=
  (gcRoots s s.gcSet []).bind fun q =>
  (collectLoop ty n q (s, [])).bind fun (s, refuse) =>
  releaseLoop ty setDelete root n refuse.length refuse s

/-- `gc_del_obj` -/
def gcDelObj (n : ℕ) (s : St) (data : ℕ) : Option (St × ℕ) :=
  if data + 8 ∈ s.gcSet then
    (collectFrom ty n s [] data).bind fun ((s, refuse), deadCount) =>
    (releaseLoop ty setDelete root n refuse.length refuse s).map (·, deadCount)
  else some (s, 0)

end Collect

end LispMachine.Collect
