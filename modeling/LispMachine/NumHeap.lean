import LispMachine.Bignum
import LispMachine.Sets

/-!
The operations of `datastructures.c` on number objects, as operations on the heap.

A number object is an object whose contents are the words of the number. An operation writes its
result into a new object; some also negate their operands in place and back again. Where there is no
memory for the new object they write through a null pointer and there is no result.
-/

namespace LispMachine.NumHeap

open LispMachine.Memory LispMachine.Alloc LispMachine.Heap LispMachine.Object
open LispMachine.Bignum (adc ones addStep digitOf)

/-- `n->contents[i]` -/
def word (s : HSt) (n i : ℕ) : ℕ := s.mem (contents n i)

/-- `n->contents[i] = v` -/
def setWord (s : HSt) (n i v : ℕ) : HSt := s.set (contents n i) v

/-- `n->contents[n->size-1]` -/
def lastWord (s : HSt) (n : ℕ) : ℕ := word s n (s.mem (size n) - 1)

/-! ### Negation -/

/-- The loop of `num_negate`, for `k` words from the word `i` on. -/
def negateWords (n : ℕ) : ℕ → ℕ → ℕ → HSt → HSt
  | 0, _, _, s => s
  | k + 1, i, carry, s =>
    let (carry, r) := adc (wnot (word s n i)) carry
    negateWords n k (i + 1) carry (setWord s n i r)

/-- `num_negate` -/
def numNegate (s : HSt) (num : ℕ) : HSt := negateWords num (s.mem (size num)) 0 1 s

/-! ### Trimming -/

/-- The loop that takes words off below the last one, from the index `i` on: the size. -/
def trimWords (p : ℕ → Bool) (n : ℕ) : ℕ → HSt → HSt
  | i + 2, s =>
    if p (word s n (i + 1)) then trimWords p n (i + 1) (s.set (size n) (wsub (s.mem (size n)) 1))
    else s
  | _, s => s

/-! ### Addition -/

/-- The loops of `num_add`, for `k` words from the word `i` on; the shorter number has `sz₂`
words and goes on with `padding`. -/
def addWords (n₁ n₂ result sz₂ padding : ℕ) : ℕ → ℕ → ℕ → HSt → HSt
  | 0, _, _, s => s
  | k + 1, i, carry, s =>
    let y := if i < sz₂ then word s n₂ i else padding
    let (carry, r) := addStep carry (word s n₁ i) y
    addWords n₁ n₂ result sz₂ padding k (i + 1) carry (setWord s result i r)

/-- `num_add` after the numbers were put in order. -/
def addOrdered (heap numType : ℕ) (s : HSt) (n₁ n₂ : ℕ) : Option (HSt × ℕ) :=
  let sz₁ := s.mem (size n₁)
  let sz₂ := s.mem (size n₂)
  let sgn₁ := lastWord s n₁ >>> 63
  let sgn₂ := lastWord s n₂ >>> 63
  (object heap s numType (wadd sz₁ 1) 0 0).bind fun (s, result) =>
    if result = 0 then none
    else
      let s := s.set (size result) sz₁
      let s := addWords n₁ n₂ result sz₂ (if sgn₂ ≠ 0 then ones else 0) sz₁ 0 0 s
      let last := word s result (sz₁ - 1)
      if sgn₁ ≠ 0 ∧ sgn₂ ≠ 0 ∧ last ≠ ones then objectAppendWord heap s result ones
      else if sgn₁ = 0 ∧ sgn₂ = 0 ∧ last ≠ 0 then objectAppendWord heap s result 0
      else some (trimWords (· = last) result (sz₁ - 1) s, result)

/-- `num_add` -/
def numAdd (heap numType : ℕ) (s : HSt) (num₁ num₂ : ℕ) : Option (HSt × ℕ) :=
  if s.mem (size num₁) < s.mem (size num₂) then addOrdered heap numType s num₂ num₁
  else addOrdered heap numType s num₁ num₂

/-! ### Comparison -/

/-- `object_delete`. The objects that hold others are deleted by `others`; a type is an object with
a type of its own, so that `n` objects at most are deleted one after the other. -/
def objectDelete (heap : ℕ) (ty : Types) (others : HSt → ℕ → Option HSt) :
    ℕ → HSt → ℕ → Option HSt
  | 0, _, _ => none
  | n + 1, s, obj =>
    if obj = 0 then some s
    else
      let type := s.mem.ptr (type obj)
      let s := s.set (refcount obj) (wsub (s.mem (refcount obj)) 1)
      if s.mem (refcount obj) ≠ 0 then some s
      else if Sets.objCmp s.mem type ty.numType = 0 ∨ Sets.objCmp s.mem type ty.stringType = 0 ∨
          Sets.objCmp s.mem type ty.bcodeType = 0 then
        (s.free heap (obj + 1)).bind fun s => objectDelete heap ty others n s type
      else others s obj

/-- `num_le`: the state afterwards, and what is returned. -/
def numLe (heap : ℕ) (ty : Types) (others : HSt → ℕ → Option HSt) (s : HSt) (num₁ num₂ : ℕ) :
    Option (HSt × ℕ) :=
  let s := numNegate s num₂
  (numAdd heap ty.numType s num₁ num₂).bind fun (s, num₃) =>
    let s := numNegate s num₂
    let sgn := lastWord s num₃
    let s := incRefcount s num₃ 1
    (objectDelete heap ty others 3 s num₃).map fun s => (s, sgn)

/-- `obj_array_idx` -/
def objArrayIdx (m : Mem) (arr idx : ℕ) : ℕ := m.ptr (contents (m.ptr (contents arr 0)) idx)

/-- `b_minus` -/
def bMinus (heap numType : ℕ) (s : HSt) (args : ℕ) : Option (HSt × ℕ) :=
  let arg₂ := objArrayIdx s.mem args 2
  let s := numNegate s arg₂
  (numAdd heap numType s (objArrayIdx s.mem args 1) arg₂).map fun (s, ret) =>
    (numNegate s arg₂, ret)

/-! ### Multiplication -/

/-- The loop of `num_mul` that adds the first number, shifted by `nsh`, to the words of the result
from the word `i` on: `k` words from the word `j` on. -/
def rowWords (n₁ result i nsh : ℕ) : ℕ → ℕ → ℕ → ℕ → HSt → HSt
  | 0, _, _, _, s => s
  | k + 1, j, carry, prev, s =>
    let curr := word s n₁ j
    let (carry, r) := addStep carry (word s result (i + j))
      ((if nsh ≠ 0 then prev >>> (64 - nsh) else 0) ||| wshl curr nsh)
    rowWords n₁ result i nsh k (j + 1) carry curr (setWord s result (i + j) r)

/-- The loop over the bits of the word `i` of the second number, for at most `k` bits more. -/
def bitRows (n₁ result sz₁ i : ℕ) : ℕ → ℕ → ℕ → HSt → HSt
  | 0, _, _, s => s
  | k + 1, nsh, x, s =>
    if x ≠ 0 then
      let s := if x &&& 1 ≠ 0 then rowWords n₁ result i nsh sz₁ 0 0 0 s else s
      bitRows n₁ result sz₁ i k (nsh + 1) (x >>> 1) s
    else s

/-- The loop over the words of the second number: `k` words from the word `i` on. -/
def mulRows (n₁ n₂ result sz₁ : ℕ) : ℕ → ℕ → HSt → HSt
  | 0, _, s => s
  | k + 1, i, s => mulRows n₁ n₂ result sz₁ k (i + 1)
      (bitRows n₁ result sz₁ i 64 0 (word s n₂ i) s)

/-- The loop that clears the first `k` words. -/
def clearWords (n : ℕ) : ℕ → HSt → HSt
  | 0, s => s
  | k + 1, s => setWord (clearWords n k s) n k 0

/-- `num_mul` after the numbers were put in order. -/
def mulOrdered (heap numType : ℕ) (s : HSt) (n₁ n₂ : ℕ) : Option (HSt × ℕ) :=
  let sz₁ := s.mem (size n₁)
  let sz₂ := s.mem (size n₂)
  let resSz := sz₁ + sz₂ - 1
  let sgn₁ := lastWord s n₁
  let sgn₂ := lastWord s n₂
  let resSgn := sgn₁ ^^^ sgn₂
  if (sz₁ = 2 ∧ word s n₁ 0 = 0) ∨ (sz₁ = 2 ∧ word s n₁ 0 = 0) then
    -- the two words of a buffer on the stack are copied
    (object heap s numType 2 0 2).map fun (s, result) =>
      if result = 0 then (s, 0) else (clearWords result 2 s, result)
  else
    let s := if sgn₁ ≠ 0 then numNegate s n₁ else s
    let s := if sgn₂ ≠ 0 then numNegate s n₂ else s
    (object heap s numType resSz 0 0).bind fun (s, result) =>
      if result = 0 then none
      else
        let s := s.set (size result) resSz
        let s := clearWords result resSz s
        let s := mulRows n₁ n₂ result sz₁ (sz₂ - 1) 0 s
        let s := if sgn₁ ≠ 0 then numNegate s n₁ else s
        let s := if sgn₂ ≠ 0 then numNegate s n₂ else s
        let s := if resSgn ≠ 0 then numNegate s result else s
        some (trimWords (· = resSgn) result (resSz - 1) s, result)

/-- `num_mul` -/
def numMul (heap numType : ℕ) (s : HSt) (num₁ num₂ : ℕ) : Option (HSt × ℕ) :=
  if s.mem (size num₂) < s.mem (size num₁) then mulOrdered heap numType s num₂ num₁
  else mulOrdered heap numType s num₁ num₂

/-! ### Zeroes -/

/-- Superfluous zeroes are taken off, and the sign word `0` above the word `-1`. -/
def trimZeroWords (n : ℕ) (s : HSt) : HSt :=
  let s := trimWords (· = 0) n (s.mem (size n) - 1) s
  let sz := s.mem (size n)
  if 2 < sz ∧ word s n (sz - 1) = 0 ∧ word s n (sz - 2) = ones then s.set (size n) (sz - 1) else s

/-! ### Bitwise operations -/

/-- The loops of `num_and`, `num_or` and `num_xor`, for `k` words from the word `i` on. -/
def combineWords (f : ℕ → ℕ → ℕ) (result n₂ : ℕ) : ℕ → ℕ → HSt → HSt
  | 0, _, s => s
  | k + 1, i, s => combineWords f result n₂ k (i + 1)
      (setWord s result i (f (word s result i) (word s n₂ i)))

/-- `num_or` and `num_xor`: a first number that is the shorter one should be swapped with the
second one, but becomes both of them. -/
def numCombine (f : ℕ → ℕ → ℕ) (heap numType : ℕ) (s : HSt) (num₁ num₂ : ℕ) :
    Option (HSt × ℕ) :=
  let n₂ := if s.mem (size num₁) < s.mem (size num₂) then num₁ else num₂
  let sz₁ := s.mem (size num₁)
  let sz₂ := s.mem (size n₂)
  (object heap s numType sz₁ (contents num₁ 0) sz₁).bind fun (s, result) =>
    if result = 0 then none else some (combineWords f result n₂ sz₂ 0 s, result)

/-- `num_or` -/
def numOr : ℕ → ℕ → HSt → ℕ → ℕ → Option (HSt × ℕ) := numCombine (· ||| ·)

/-- `num_xor` -/
def numXor : ℕ → ℕ → HSt → ℕ → ℕ → Option (HSt × ℕ) := numCombine (· ^^^ ·)

/-- `num_and` -/
def numAnd (heap numType : ℕ) (s : HSt) (num₁ num₂ : ℕ) : Option (HSt × ℕ) :=
  let sz := min (s.mem (size num₁)) (s.mem (size num₂))
  (object heap s numType (wadd sz 1) (contents num₁ 0) sz).bind fun (s, result) =>
    if result = 0 then none
    else
      let s := combineWords (· &&& ·) result num₂ sz 0 s
      (objectAppendWord heap s result 0).bind fun (s, result) =>
        if result = 0 then none else some (trimZeroWords result s, result)

/-! ### Shifts -/

/-- `object_expand`. A null pointer from `realloc` is decremented before it is tested, so that it
passes for an object: there is no result. -/
def objectExpand (heap : ℕ) (s : HSt) (obj newSz : ℕ) : Option (HSt × ℕ) :=
  let oldSz := s.mem (size obj)
  (s.realloc heap (obj + 1) (wadd objSz newSz)).bind fun (s, a) =>
    if a = 0 then none
    else
      let new := a - 1
      some (if newSz < oldSz then s.set (size new) newSz else s, new)

/-- The heap, and the indices of the content words of an object written so far. The machine keeps no
such list. -/
abbrev Written := HSt × List ℕ

def put (n : ℕ) (s : Written) (i v : ℕ) : Written := (setWord s.1 n i v, i :: s.2)

/-- The loop of `num_shift_left` when words are split. -/
def shiftLeftWords (n div mod : ℕ) : ℕ → Written → Written
  | 0, s => s
  | i + 1, s => shiftLeftWords n div mod i
      (put n s (i + 1 + div) (word s.1 n i >>> (64 - mod) ||| wshl (word s.1 n (i + 1)) mod))

/-- The loop of `num_shift_left` when they are not. -/
def moveUpWords (n div : ℕ) : ℕ → Written → Written
  | 0, s => s
  | i + 1, s => moveUpWords n div i (put n s (i + div) (word s.1 n i))

/-- The loop that clears the words below the word `div`, which are `k` words from the word `i`
on. -/
def clearLow (n : ℕ) : ℕ → ℕ → Written → Written
  | 0, _, s => s
  | k + 1, i, s => clearLow n k (i + 1) (put n s i 0)

/-- The content words that `num_shift_left` writes, once the object has the size it needs. -/
def shiftLeftBody (n sz sgn div mod : ℕ) (s : HSt) : Written :=
  let s : Written :=
    if mod ≠ 0 then
      let s := shiftLeftWords n div mod (sz - 1) (s, [])
      let s := put n s div (wshl (word s.1 n 0) mod)
      let last := sz + div
      let s := put n s last (sgn >>> (64 - mod))
      let s := if sgn ≠ 0 then
          let s := put n s (last + 1) 0
          (s.1.set (size n) (wadd (s.1.mem (size n)) 1), s.2)
        else s
      (trimZeroWords n s.1, s.2)
    else if div ≠ 0 then moveUpWords n div sz (s, [])
    else (s, [])
  clearLow n div 0 s

/-- `num_shift_left`: the heap, the object, and the indices of the content words written. -/
def numShiftLeft (heap : ℕ) (s : HSt) (num shf : ℕ) : Option (HSt × ℕ × List ℕ) :=
  let sz := s.mem (size num)
  let sgn := lastWord s num
  let div := shf / 64
  let mod := shf % 64
  let minSz := sz + div + if mod ≠ 0 then 2 else 0
  (if s.mem num < minSz then objectExpand heap s num minSz else some (s, num)).map fun (s, n) =>
    let s := s.set (size n) (minSz - if mod ≠ 0 then 1 else 0)
    let s := shiftLeftBody n sz sgn div mod s
    (s.1, n, s.2)

/-- The loop of `num_shift_right` when words are split, for `k` words from the word `i` on. -/
def shiftRightWords (n div mod : ℕ) : ℕ → ℕ → HSt → HSt
  | 0, _, s => s
  | k + 1, i, s => shiftRightWords n div mod k (i + 1)
      (setWord s n i (word s n (i + div) >>> mod ||| wshl (word s n (i + div + 1)) (64 - mod)))

/-- The loop of `num_shift_right` when they are not. -/
def moveDownWords (n div : ℕ) : ℕ → ℕ → HSt → HSt
  | 0, _, s => s
  | k + 1, i, s => moveDownWords n div k (i + 1) (setWord s n i (word s n (i + div)))

/-- `num_shift_right` -/
def numShiftRight (heap : ℕ) (s : HSt) (num shf : ℕ) : Option (HSt × ℕ) :=
  let sz := s.mem (size num)
  let sgn := lastWord s num
  let div := shf / 64
  let mod := shf % 64
  if sz * 64 ≤ shf then
    let s := setWord s num 0 0
    let s := setWord s num 1 0
    some (s.set (size num) 2, num)
  else if mod ≠ 0 then
    let s := shiftRightWords num div mod (sz - div - 1) 0 s
    let s := s.set (size num) (sz - div)
    let s := setWord s num (sz - div - 1) (sgn >>> mod)
    (if sgn ≠ 0 ∨ sz - 1 ≤ div then objectAppendWord heap s num 0 else some (s, num)).bind
      fun (s, n) => if n = 0 then none else some (trimZeroWords n s, n)
  else if div ≠ 0 then
    let s := moveDownWords num div (sz - div) 0 s
    some (s.set (size num) (sz - div), num)
  else some (s, num)

/-- `num_shift` -/
def numShift (heap numType : ℕ) (s : HSt) (num₁ num₂ : ℕ) : Option (HSt × ℕ) :=
  let sz₂ := s.mem (size num₂)
  let sgn₂ := lastWord s num₂
  if sz₂ ≤ 2 ∧ word s num₂ 0 = 0 then some (s, num₁)
  else if 2 < sz₂ then some (s, num₁)
  else if sgn₂ ≠ 0 then
    let s := numNegate s num₂
    let sz₁ := s.mem (size num₁)
    let sz := sz₁ + word s num₂ 0 / 64 + 1 + 1
    (object heap s numType sz (contents num₁ 0) sz₁).bind fun (s, result) =>
      if result = 0 then none
      else (numShiftLeft heap s result (word s num₂ 0)).map fun (s, _, _) =>
        (numNegate s num₂, result)
  else
    let sz₁ := s.mem (size num₁)
    (object heap s numType (sz₁ + 1) (contents num₁ 0) sz₁).bind fun (s, result) =>
      if result = 0 then none
      else (numShiftRight heap s result (word s num₂ 0)).map fun (s, _) => (s, result)

/-! ### Strings -/

/-- The loop over `k` digits, from the character at `arr` on. -/
def readDigits (m : Mem) : ℕ → ℕ → ℕ → Option ℕ
  | 0, _, current => some current
  | k + 1, arr, current =>
    (digitOf (m arr)).bind fun d => readDigits m k (arr + 1) (wshl current 4 ||| d)

/-- The loop over the words of 16 digits, with `k` words to come: the number, unless a character is
not a digit. -/
def readWords (heap arr os : ℕ) : ℕ → HSt → ℕ → Option (HSt × Option ℕ)
  | 0, s, finalNum => some (s, some finalNum)
  | k + 1, s, finalNum =>
    match readDigits s.mem 16 (arr + (k * 16 + os)) 0 with
    | none => (s.free heap (finalNum + 1)).map fun s => (s, none)
    | some current => (objectAppendWord heap s finalNum current).bind fun (s, finalNum) =>
        readWords heap arr os k s finalNum

/-- The end of `str_to_num`, after the loops: `sz` words of 16 digits were read, and the digits
before them are those of `c`. -/
def finishNum (heap : ℕ) (s : HSt) (finalNum sz c : ℕ) (neg : Bool) : Option (HSt × ℕ) :=
  (if c ≠ 0 ∨ ¬ (sz ≠ 0 ∨ c ≠ 0) then objectAppendWord heap s finalNum c
    else some (s, finalNum)).bind fun (s, finalNum) =>
  (objectAppendWord heap s finalNum 0).bind fun (s, finalNum) =>
    if neg then if finalNum = 0 then none else some (numNegate s finalNum, finalNum)
    else some (s, finalNum)

/-- `str_to_num` after the sign: `length` characters at `arr`. -/
def readNum (heap numType : ℕ) (s : HSt) (arr length : ℕ) (neg : Bool) : Option (HSt × ℕ) :=
  let sz := length / 16
  let os := length % 16
  (object heap s numType sz 0 0).bind fun (s, finalNum) =>
    match readDigits s.mem os arr 0 with
    | none =>
      let s := s.set (refcount numType) (wsub (s.mem (refcount numType)) 1)
      (s.free heap (finalNum + 1)).map fun s => (s, 0)
    | some c => (readWords heap arr os sz s finalNum).bind fun (s, finalNum) =>
        match finalNum with
        | none => some (s, 0)
        | some finalNum => finishNum heap s finalNum sz c neg

/-- `str_to_num` -/
def strToNum (heap numType : ℕ) (s : HSt) (num : ℕ) : Option (HSt × ℕ) :=
  let length := s.mem (size num)
  let arr := contents num 0
  if length = 0 then some (s, 0)
  else if s.mem arr = 45 then
    if length - 1 = 0 then some (s, 0) else readNum heap numType s (arr + 1) (length - 1) true
  else readNum heap numType s arr length false

end LispMachine.NumHeap
