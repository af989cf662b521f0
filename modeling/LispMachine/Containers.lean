import LispMachine.AsmHeap

/-!
The containers of `datastructures.c` on the heap: arrays, ring buffers and arrays of objects.

All the sizes are words, and so are the sums and products of sizes. An item is given by its
address, from which it is copied.
-/

namespace LispMachine.Containers

open LispMachine.Memory LispMachine.Alloc LispMachine.Heap LispMachine.Object
open LispMachine.AsmHeap (arrayBsz memAddr usedSz itemSz)

/-- Multiplication of words. -/
def wmul (x y : ℕ) : ℕ := x * y % wordMod

/-- `array` -/
def array (heap : ℕ) (s : HSt) (size item : ℕ) : Option (HSt × ℕ) :=
  (s.alloc heap (wadd (wmul size item) arrayBsz)).map fun (s, mem) =>
    if mem = 0 then (s, 0)
    else
      let arr := mem + arrayBsz
      ((s.set (usedSz arr) 0).set (itemSz arr) item, arr)

/-- The loop of `array_append` that copies the first `n` words of the item. -/
def copyItem (dst item : ℕ) : ℕ → HSt → HSt
  | 0, s => s
  | n + 1, s =>
    let s := copyItem dst item n s
    s.set (dst + n) (s.mem (item + n))

/-- `array_append` -/
def arrayAppend (heap : ℕ) (s : HSt) (arr item : ℕ) : Option (HSt × ℕ) :=
  let trueMemSz := getMemSz s.mem (memAddr arr)
  let memSz := wsub trueMemSz arrayBsz
  let used := s.mem (usedSz arr)
  let sz := s.mem (itemSz arr)
  (if memSz < wadd used sz then
    (s.realloc heap (memAddr arr) (wadd (wadd trueMemSz (memSz / 2)) sz)).map fun (s, mem) =>
      (s, if mem = 0 then 0 else mem + arrayBsz)
  else some (s, arr)).map fun (s, arr) =>
    if arr = 0 then (s, 0)
    else
      let s := copyItem (arr + used) item sz s
      (s.set (usedSz arr) (wadd (s.mem (usedSz arr)) sz), arr)

/-- The fields of a ring buffer. -/
def buf (rb : ℕ) : ℕ := rb
def head (rb : ℕ) : ℕ := rb + 1
def tail (rb : ℕ) : ℕ := rb + 2

/-- `sizeof(RingBuf)/sizeof(word)` -/
def ringBufSz : ℕ := 3

/-- `ring_buf` -/
def ringBuf (heap : ℕ) (s : HSt) (size item : ℕ) : Option (HSt × ℕ) :=
  if size ≤ 1 then some (s, 0)
  else
    (s.alloc heap ringBufSz).bind fun (s, rb) =>
      if rb = 0 then some (s, 0)
      else
        (array heap s size item).bind fun (s, arr) =>
          if arr = 0 then (s.free heap rb).map fun s => (s, 0)
          else some (((s.setPtr (buf rb) arr).set (head rb) 0).set (tail rb) 0, rb)

/-- `object_append` -/
def objectAppend (heap : ℕ) (s : HSt) (obj dt : ℕ) : Option (HSt × ℕ) :=
  if obj = 0 ∨ dt = 0 then some (s, 0)
  else objectAppendWord heap (incRefcount s dt 1) obj (8 * dt)

/-- `obj_array_append`, which returns nothing -/
def objArrayAppend (heap : ℕ) (s : HSt) (arr dt : ℕ) : Option HSt :=
  (objectAppend heap s (s.mem.ptr (contents arr 0)) dt).map fun (s, o) =>
    s.setPtr (contents arr 0) o

end LispMachine.Containers
