import LispMachine.Heap

/-!
Objects of `datastructures.c`, and how a heap begins: its header, the set of the collector and
the objects of the types.

An object is a used block: `max_sz`, the header word of the block, then `refcount`, `type`,
`size` and the contents. Writing through a null pointer is a fault and has no result.
-/

namespace LispMachine.Object

open LispMachine.Memory LispMachine.AvlCode LispMachine.Alloc LispMachine.Heap

def objSz : ℕ := 4

def refcount (obj : ℕ) : ℕ := obj + 1
def type (obj : ℕ) : ℕ := obj + 2
def size (obj : ℕ) : ℕ := obj + 3
def contents (obj i : ℕ) : ℕ := obj + 4 + i

/-- Copying the first `n` words. -/
def copyContents (obj src : ℕ) : ℕ → HSt → HSt
  | 0, s => s
  | n + 1, s =>
    let s := copyContents obj src n s
    s.set (contents obj n) (s.mem (src + n))

/-- `++o->refcount`, or more -/
def incRefcount (s : HSt) (obj n : ℕ) : HSt :=
  s.set (refcount obj) (wadd (s.mem (refcount obj)) n)

/-- `object` -/
def object (heap : ℕ) (s : HSt) (ty sz src nWords : ℕ) : Option (HSt × ℕ) :=
  if sz < nWords then some (s, 0)
  else
    (s.alloc heap (wsub (wadd sz objSz) 1)).map fun (s, mem) =>
      if mem = 0 then (s, 0)
      else
        let obj := mem - 1
        let s := s.set (refcount obj) 0
        let s := s.setPtr (type obj) ty
        let s := if ty ≠ 0 then incRefcount s ty 1 else s
        let s := s.set (size obj) nWords
        (if src ≠ 0 then copyContents obj src nWords s else s, obj)

/-- `object_append_word` -/
def objectAppendWord (heap : ℕ) (s : HSt) (obj dt : ℕ) : Option (HSt × ℕ) :=
  if obj = 0 then some (s, 0)
  else
    let maxSz := wsub (s.mem obj) objSz
    let sz := s.mem (size obj)
    (if maxSz ≤ sz then
      (s.realloc heap (obj + 1) (wadd (wadd (wadd objSz sz) (sz / 2)) 1)).map fun (s, a) =>
        (s, if a = 0 then 0 else a - 1)
    else some (s, obj)).map fun (s, o) =>
      if o = 0 then (s, 0)
      else
        let s := s.set (contents o (s.mem (size o))) dt
        (s.set (size o) (wadd (s.mem (size o)) 1), o)

/-- The loop of `cstr_to_string`. -/
def appendChars (heap : ℕ) : HSt → ℕ → List ℕ → Option (HSt × ℕ)
  | s, obj, [] => some (s, obj)
  | s, obj, c :: str =>
    (objectAppendWord heap s obj c).bind fun (s, obj) => appendChars heap s obj str

/-- `cstr_to_string` -/
def cstrToString (heap stringType : ℕ) (s : HSt) (str : List ℕ) : Option (HSt × ℕ) :=
  (object heap s stringType 8 0 0).bind fun (s, obj) => appendChars heap s obj str

/-- The global variables that hold the types. -/
structure Types where
  stringType : ℕ
  numType : ℕ
  arrayType : ℕ
  subarrayType : ℕ
  setType : ℕ
  functionType : ℕ
  cellType : ℕ
  bcodeType : ℕ
deriving DecidableEq

/-- One line of `init_types`: the object of a type, held by its variable. -/
def initType (heap stringType : ℕ) (s : HSt) (str : String) : Option (HSt × ℕ) :=
  (cstrToString heap stringType s (chars str)).bind fun (s, o) =>
    if o = 0 then none else some (incRefcount s o 1, o)

/-- `init_types`, with the variables null at first. -/
def initTypes (heap : ℕ) (s : HSt) : Option (HSt × Types) :=
  (cstrToString heap 0 s (chars "str")).bind fun (s, str) =>
    if str = 0 then none
    else
      let s := s.setPtr (type str) str
      let s := incRefcount s str 2
      (initType heap str s "num").bind fun (s, num) =>
      (initType heap str s "arr").bind fun (s, arr) =>
      (initType heap str s "sar").bind fun (s, sar) =>
      (initType heap str s "set").bind fun (s, set) =>
      (initType heap str s "fun").bind fun (s, fn) =>
      (initType heap str s "cel").bind fun (s, cel) =>
      (initType heap str s "bco").bind fun (s, bco) =>
        some (s, ⟨str, num, arr, sar, set, fn, cel, bco⟩)

/-- The first half of `init_heap`: the header and the only free block. -/
def initHeader (m : Mem) (heap heapSz : ℕ) : Option Mem :=
  let m := m.set (heapEnd heap) (8 * padd heap heapSz)
  let m := m.set (prev heap) 0
  let m := m.set (next heap) 0
  let m := m.setPtr (fmdsPtr heap) (padd heap hdsSz)
  let m := m.set (trueNumAlloced heap) 0
  let m := m.set (gcNumAlloced heap) 0
  let m := m.set (wordsUsed heap) 0
  (avlInsertNode avlBasicCmp m (fmdsPtr heap) (m.ptr (fmdsPtr heap)) (wsub heapSz hdsSz)).map
    fun (m, _) => m

/-- `init_heap`: the state afterwards, the types, and the address returned, which is null when
the heap is too small. The start is a multiple of the word size, as it is a word's address. -/
def initHeap (m : Mem) (heap heapSz : ℕ) : Option (HSt × Types × ℕ) :=
  if heapSz < minAllocSz + hdsSz then some (⟨m, []⟩, ⟨0, 0, 0, 0, 0, 0, 0, 0⟩, 0)
  else
    (initHeader m heap heapSz).bind fun m =>
      ((⟨m, []⟩ : HSt).alloc heap (1 + objSz - 1)).bind fun (s, o) =>
        if o = 0 then none
        else
          let obj := o - 1
          let s := s.set (refcount obj) 1
          let s := s.set (size obj) 1
          let s := s.set (contents obj 0) 0
          let s := s.setPtr (gcSet heap) obj
          (initTypes heap s).map fun (s, ty) =>
            let s := s.setPtr (type (s.mem.ptr (gcSet heap))) ty.setType
            (incRefcount s ty.setType 1, ty, heap)

end LispMachine.Object
