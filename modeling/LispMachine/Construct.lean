import LispMachine.Containers
import LispMachine.NumHeap

/-!
The constructors of `datastructures.c`, `alloc.c` and `lisp.c` that allocate more than once, and
the deletion of objects, with which some of them take back what they have allocated.

The local node of `avl_find` is at `loc`. A reference that is counted through a null pointer is a
write through it, and has no result.
-/

namespace LispMachine.Construct

open LispMachine.Memory LispMachine.AvlCode LispMachine.Alloc LispMachine.Heap LispMachine.Object
open LispMachine.Containers
open LispMachine.Sets (objCmp avlInsert setAddStrKey)

/-! ### Deletion -/

/-- `avl_delete` -/
def avlDelete (cmp : Cmp) (heap loc : ℕ) (s : HSt) (tr dt : ℕ) : Option (HSt × ℕ) :=
  (avlFind cmp s.mem loc tr dt).bind fun node =>
    if node = 0 then some (s, 1)
    else
      (avlDeleteNode s.mem tr node).bind fun (m, x) =>
        let s := { s with mem := m }
        if x ≠ 0 then (s.free heap x).map fun s => (s, 0) else some (s, 1)

/-- The loops that delete the contents of an object, from the word `i` on; `del` deletes one. -/
def deleteContents (del : HSt → ℕ → Option HSt) (obj : ℕ) : ℕ → ℕ → HSt → Option HSt
  | 0, _, _ => none
  | n + 1, i, s =>
    if i < s.mem (size obj) then
      (del s (s.mem.ptr (contents obj i))).bind (deleteContents del obj n (i + 1))
    else some s

/-- The loop of `set_delete`. -/
def drainSet (del : HSt → ℕ → Option HSt) (heap loc tr : ℕ) : ℕ → HSt → Option HSt
  | 0, _ => none
  | n + 1, s =>
    let root := s.mem.ptr tr
    if root = 0 then some s
    else
      (del s (data s.mem root / 8)).bind fun s =>
      (avlDelete avlBasicCmp heap loc s tr (data s.mem root)).bind fun (s, _) =>
        drainSet del heap loc tr n s

/-- `set_delete` -/
def setDelete (del : HSt → ℕ → Option HSt) (heap loc : ℕ) (s : HSt) (set : ℕ) : Option HSt :=
  (drainSet del heap loc (contents set 0) fuel s).bind fun s => s.free heap (set + 1)

/-- `obj_array_delete` -/
def objArrayDelete (del : HSt → ℕ → Option HSt) (heap : ℕ) (s : HSt) (obj : ℕ) : Option HSt :=
  let arr := s.mem.ptr (contents obj 0)
  (del s (s.mem.ptr (type arr))).bind fun s =>
  (s.free heap (obj + 1)).bind fun s =>
    let s := s.set (refcount arr) (wsub (s.mem (refcount arr)) 1)
    if s.mem (refcount arr) ≠ 0 then some s
    else (deleteContents del arr fuel 0 s).bind fun s => s.free heap (arr + 1)

/-- What `object_delete` does with the last reference to an object that holds others, for objects
that hold each other less than `n` deep. -/
def deleteOthers (heap loc : ℕ) (ty : Types) : ℕ → HSt → ℕ → Option HSt
  | 0, _, _ => none
  | n + 1, s, obj =>
    let del := NumHeap.objectDelete heap ty (deleteOthers heap loc ty n) n
    let type := s.mem.ptr (type obj)
    if objCmp s.mem type ty.setType = 0 then
      (setDelete del heap loc s obj).bind fun s => del s type
    else if objCmp s.mem type ty.cellType = 0 ∨ objCmp s.mem type ty.subarrayType = 0 then
      (deleteContents del obj fuel 0 s).bind fun s =>
      (s.free heap (obj + 1)).bind fun s => del s type
    else if objCmp s.mem type ty.arrayType = 0 then
      (objArrayDelete del heap s obj).bind fun s => del s type
    else if objCmp s.mem type ty.functionType = 0 then some s
    else del s type

/-- `object_delete` -/
def objectDelete (heap loc : ℕ) (ty : Types) : HSt → ℕ → Option HSt :=
  NumHeap.objectDelete heap ty (deleteOthers heap loc ty fuel) fuel

/-! ### Constructors -/

/-- `set`: the word of a local variable, `0`, is copied. -/
def set (heap : ℕ) (ty : Types) (s : HSt) : Option (HSt × ℕ) :=
  (object heap s ty.setType 1 0 1).map fun (s, o) =>
    if o = 0 then (s, 0) else (s.set (contents o 0) 0, o)

/-- `obj_array` -/
def objArray (heap loc : ℕ) (ty : Types) (s : HSt) (size : ℕ) : Option (HSt × ℕ) :=
  (object heap s ty.subarrayType size 0 0).bind fun (s, arr) =>
    if arr = 0 then some (s, 0)
    else
      (object heap (incRefcount s arr 1) ty.arrayType 1 0 0).bind fun (s, ret) =>
        if ret = 0 then (objectDelete heap loc ty s arr).map fun s => (s, 0)
        else some (s.setPtr (contents ret 0) arr, ret)

/-- The fields of a concurrent FIFO. -/
def fifoA (cf : ℕ) : ℕ := cf
def fifoB (cf : ℕ) : ℕ := cf + 1
def aLck (cf : ℕ) : ℕ := cf + 2
def bLck (cf : ℕ) : ℕ := cf + 3
def tag (cf : ℕ) : ℕ := cf + 4
def currTag (cf : ℕ) : ℕ := cf + 5

/-- `sizeof(ConcurrentFIFO)/sizeof(word)` -/
def fifoSz : ℕ := 6

/-- `concurrent_fifo`, whose labels `error_2` and `error_1` are reached one from the other. -/
def concurrentFifo (heap : ℕ) (s : HSt) (primary secondary item : ℕ) : Option (HSt × ℕ) :=
  (s.alloc heap fifoSz).bind fun (s, cf) =>
    if cf = 0 then some (s, 0)
    else
      (ringBuf heap s primary (wadd item 1)).bind fun (s, a) =>
        let s := s.setPtr (fifoA cf) a
        if a = 0 then (s.free heap cf).map fun s => (s, 0)
        else
          (ringBuf heap s secondary (wadd item 1)).bind fun (s, b) =>
            let s := s.setPtr (fifoB cf) b
            if b = 0 then
              (s.free heap (s.mem.ptr (fifoA cf))).bind fun s =>
              (s.free heap cf).map fun s => (s, 0)
            else
              some ((((s.set (aLck cf) 0).set (bLck cf) 0).set (tag cf) 0).set (currTag cf) 0, cf)

/-- `++h_info->gc_num_alloced` -/
def countGc (heap : ℕ) (s : HSt) : HSt :=
  s.set (gcNumAlloced heap) (wadd (s.mem (gcNumAlloced heap)) 1)

/-- `gc_alloc` -/
def gcAlloc (heap : ℕ) (s : HSt) (n : ℕ) : Option (HSt × ℕ) :=
  (s.alloc heap n).bind fun (s, addr) =>
    if addr = 0 then some (s, 0)
    else
      (avlInsert avlBasicCmp heap s (contents (s.mem.ptr (gcSet heap)) 0) (8 * addr)).bind
        fun (s, cond) =>
          if cond ≠ 0 then (s.free heap addr).map fun s => (s, 0) else some (countGc heap s, addr)

/-- `gc_add` -/
def gcAdd (heap : ℕ) (s : HSt) (obj : ℕ) : Option (HSt × ℕ) :=
  (avlInsert avlBasicCmp heap s (contents (s.mem.ptr (gcSet heap)) 0) (8 * (obj + 1))).map
    fun (s, cond) => (if cond = 0 then countGc heap s else s, cond)

/-- `new_fn`; the key of the enclosing namespace is the string `sup`. -/
def newFn (heap loc : ℕ) (ty : Types) (sup : ℕ) (s : HSt) (encl args exp : ℕ) :
    Option (HSt × ℕ) :=
  (set heap ty s).bind fun (s, ns) =>
  (object heap s ty.functionType 3 0 0).bind fun (s, self) =>
    if self = 0 then some (s, 0)
    else
      (gcAdd heap s self).bind fun (s, cond) =>
        if cond ≠ 0 then (objectDelete heap loc ty s self).map fun s => (s, 0)
        else if ns = 0 ∨ args = 0 ∨ exp = 0 then none
        else
          let s := s.set (size self) 3
          let s := s.setPtr (contents self 0) ns
          let s := s.setPtr (contents self 1) args
          let s := s.setPtr (contents self 2) exp
          let s := incRefcount (incRefcount (incRefcount s ns 1) args 1) exp 1
          (if encl ≠ 0 then (setAddStrKey heap ty.cellType s ns sup encl).map Prod.fst
          else some s).map fun s => (s, self)

end LispMachine.Construct
