import LispMachine.Memory
import Mathlib.Logic.Function.Basic
import Mathlib.Data.List.Basic

/-!
The numbers of `datastructures.c`.

A number object is the list of its words, the lowest one first; the last one is the sign word. An
operation that puts words past the end of an object first works on all the words from its
beginning, those of the memory behind it included.
-/

namespace LispMachine.Bignum

open LispMachine.Memory

/-- The word `-1`. -/
def ones : ℕ := wordMod - 1

/-- `contents[size-1]` -/
def last (n : List ℕ) : ℕ := n.getD (n.length - 1) 0

/-- `adc`: the carry, and the result. -/
def adc (x y : ℕ) : ℕ × ℕ :=
  let result := wadd x y
  let mask := ones >>> 1
  let z := (wadd (x &&& mask) (y &&& mask)) >>> 63
  let x := x >>> 63
  let y := y >>> 63
  ((x &&& y) ||| (x &&& z) ||| (y &&& z), result)

/-- The loop of `num_negate`. -/
def negateLoop : ℕ → List ℕ → List ℕ
  | _, [] => []
  | carry, x :: xs =>
    let (carry, r) := adc (wnot x) carry
    r :: negateLoop carry xs

/-- `num_negate` -/
def numNegate (n : List ℕ) : List ℕ := negateLoop 1 n

/-- The loop that takes off words with the property `p` below the last one: the index of the last
word that stays. -/
def trimLoop (p : ℕ → Bool) (c : ℕ → ℕ) : ℕ → ℕ
  | i + 2 => if p (c (i + 1)) then trimLoop p c (i + 1) else i + 2
  | i => i

def trim (p : ℕ → Bool) (n : List ℕ) : List ℕ :=
  n.take (trimLoop p (fun i => n.getD i 0) (n.length - 1) + 1)

/-! ### Addition -/

/-- A carry and two words are added. -/
def addStep (carry x y : ℕ) : ℕ × ℕ :=
  let (carry, r) := adc x carry
  let (carry', r) := adc r y
  (wadd carry carry', r)

/-- The loops of `num_add`; the shorter number goes on with `padding`. -/
def addLoop (padding : ℕ) : ℕ → List ℕ → List ℕ → List ℕ
  | _, [], _ => []
  | carry, x :: xs, [] =>
    let (carry, r) := addStep carry x padding
    r :: addLoop padding carry xs []
  | carry, x :: xs, y :: ys =>
    let (carry, r) := addStep carry x y
    r :: addLoop padding carry xs ys

/-- `num_add` after the numbers were put in order. -/
def addOrdered (n₁ n₂ : List ℕ) : List ℕ :=
  let sgn₁ := last n₁ >>> 63
  let sgn₂ := last n₂ >>> 63
  let result := addLoop (if sgn₂ ≠ 0 then ones else 0) 0 n₁ n₂
  if sgn₁ ≠ 0 ∧ sgn₂ ≠ 0 ∧ last result ≠ ones then result ++ [ones]
  else if sgn₁ = 0 ∧ sgn₂ = 0 ∧ last result ≠ 0 then result ++ [0]
  else trim (· = last result) result

/-- `num_add` -/
def numAdd (n₁ n₂ : List ℕ) : List ℕ :=
  if n₁.length < n₂.length then addOrdered n₂ n₁ else addOrdered n₁ n₂

/-! ### Shifts -/

/-- The words of an object with the contents `n`, and those of the memory behind it. -/
def words (n : List ℕ) (junk : ℕ → ℕ) (i : ℕ) : ℕ := if i < n.length then n.getD i 0 else junk i

/-- The object with the first `size` of the words. -/
def object (c : ℕ → ℕ) (size : ℕ) : List ℕ := (List.range size).map c

/-- Superfluous zeroes are taken off, and the sign word `0` above the word `-1`: the size. -/
def trimZeroes (c : ℕ → ℕ) (size : ℕ) : ℕ :=
  let size := trimLoop (· = 0) c (size - 1) + 1
  if 2 < size ∧ c (size - 1) = 0 ∧ c (size - 2) = ones then size - 1 else size

/-- The loop of `num_shift_left` when words are split. -/
def shiftLeftLoop (div mod : ℕ) : ℕ → (ℕ → ℕ) → ℕ → ℕ
  | 0, c => c
  | i + 1, c => shiftLeftLoop div mod i
      (Function.update c (i + 1 + div) (c i >>> (64 - mod) ||| wshl (c (i + 1)) mod))

/-- The loop of `num_shift_left` when they are not. -/
def moveUpLoop (div : ℕ) : ℕ → (ℕ → ℕ) → ℕ → ℕ
  | 0, c => c
  | i + 1, c => moveUpLoop div i (Function.update c (i + div) (c i))

/-- `num_shift_left` of an object with room for the result. -/
def numShiftLeft (c : ℕ → ℕ) (size shf : ℕ) : List ℕ :=
  let sgn := c (size - 1)
  let div := shf / 64
  let mod := shf % 64
  let (c, size) :=
    if mod ≠ 0 then
      let c := shiftLeftLoop div mod (size - 1) c
      let c := Function.update c div (wshl (c 0) mod)
      let last := size + div
      let c := Function.update c last (sgn >>> (64 - mod))
      let (c, size) := if sgn ≠ 0 then (Function.update c (last + 1) 0, size + div + 2)
        else (c, size + div + 1)
      (c, trimZeroes c size)
    else (moveUpLoop div size c, size + div)
  object (fun i => if i < div then 0 else c i) size

/-- The loop of `num_shift_right` when words are split, for `n` words from the word `i` on. -/
def shiftRightLoop (div mod : ℕ) : ℕ → ℕ → (ℕ → ℕ) → ℕ → ℕ
  | 0, _, c => c
  | n + 1, i, c => shiftRightLoop div mod n (i + 1)
      (Function.update c i (c (i + div) >>> mod ||| wshl (c (i + div + 1)) (64 - mod)))

/-- The loop of `num_shift_right` when they are not. -/
def moveDownLoop (div : ℕ) : ℕ → ℕ → (ℕ → ℕ) → ℕ → ℕ
  | 0, _, c => c
  | n + 1, i, c => moveDownLoop div n (i + 1) (Function.update c i (c (i + div)))

/-- `num_shift_right` -/
def numShiftRight (c : ℕ → ℕ) (size shf : ℕ) : List ℕ :=
  let sgn := c (size - 1)
  let div := shf / 64
  let mod := shf % 64
  if size * 64 ≤ shf then [0, 0]
  else if mod ≠ 0 then
    let c := shiftRightLoop div mod (size - div - 1) 0 c
    let c := Function.update c (size - div - 1) (sgn >>> mod)
    let (c, size) := if sgn ≠ 0 ∨ size - 1 ≤ div
      then (Function.update c (size - div) 0, size - div + 1) else (c, size - div)
    object c (trimZeroes c size)
  else if div ≠ 0 then object (moveDownLoop div (size - div) 0 c) (size - div)
  else object c size

/-- `num_shift`; `same` tells that the two numbers are one object. -/
def numShift (same : Bool) (n₁ n₂ : List ℕ) (junk : ℕ → ℕ) : List ℕ :=
  if n₂.length ≤ 2 ∧ n₂.getD 0 0 = 0 then n₁
  else if 2 < n₂.length then n₁
  else if last n₂ ≠ 0 then
    let n₂ := numNegate n₂
    let n₁ := if same then n₂ else n₁
    numShiftLeft (words n₁ junk) n₁.length (n₂.getD 0 0)
  else numShiftRight (words n₁ junk) n₁.length (n₂.getD 0 0)

/-! ### Bits -/

/-- `num_and` -/
def numAnd (n₁ n₂ : List ℕ) : List ℕ :=
  let result := List.zipWith (· &&& ·) n₁ n₂ ++ [0]
  result.take (trimZeroes (fun i => result.getD i 0) result.length)

/-- The words of `n₁`, each changed by that of `n₂` as far as there is one. -/
def combine (f : ℕ → ℕ → ℕ) (n₁ n₂ : List ℕ) : List ℕ :=
  List.zipWith f n₁ n₂ ++ n₁.drop n₂.length

/-- `num_or`: where the second number is the longer one, the swap loses it. -/
def numOr (n₁ n₂ : List ℕ) : List ℕ :=
  let n₂ := if n₁.length < n₂.length then n₁ else n₂
  combine (· ||| ·) n₁ n₂

/-- `num_xor` -/
def numXor (n₁ n₂ : List ℕ) : List ℕ :=
  let n₂ := if n₁.length < n₂.length then n₁ else n₂
  combine (· ^^^ ·) n₁ n₂

/-- `num_not` -/
def numNot (n : List ℕ) : List ℕ := n.map wnot

/-! ### Multiplication -/

/-- The loop of `num_mul` that adds the first number, shifted by `nsh`. -/
def mulRow (nsh : ℕ) : ℕ → ℕ → List ℕ → List ℕ → List ℕ
  | carry, prev, x :: xs, r :: rs =>
    let (carry, r) := addStep carry r
      ((if nsh ≠ 0 then prev >>> (64 - nsh) else 0) ||| wshl x nsh)
    r :: mulRow nsh carry x xs rs
  | _, _, _, rs => rs

/-- The loop over the bits of the word `i` of the second number, for at most `k` bits more. -/
def mulBits (n₁ : List ℕ) (i : ℕ) : ℕ → ℕ → ℕ → List ℕ → List ℕ
  | 0, _, _, res => res
  | k + 1, nsh, x, res =>
    if x ≠ 0 then
      let res := if x &&& 1 ≠ 0 then res.take i ++ mulRow nsh 0 0 n₁ (res.drop i) else res
      mulBits n₁ i k (nsh + 1) (x >>> 1) res
    else res

/-- The loop over the words of the second number, from the word `i` on. -/
def mulWords (n₁ : List ℕ) : ℕ → List ℕ → List ℕ → List ℕ
  | _, [], res => res
  | i, x :: xs, res => mulWords n₁ (i + 1) xs (mulBits n₁ i 64 0 x res)

/-- `num_mul` after the numbers were put in order. -/
def mulOrdered (same : Bool) (n₁ n₂ : List ℕ) : List ℕ :=
  let resSz := n₁.length + n₂.length - 1
  let resSgn := last n₁ ^^^ last n₂
  if (n₁.length = 2 ∧ n₁.getD 0 0 = 0) ∨ (n₁.length = 2 ∧ n₁.getD 0 0 = 0) then [0, 0]
  else
    -- a number that is both operands is negated twice
    let m₁ := if last n₁ ≠ 0 then numNegate n₁ else n₁
    let m₂ := if same then m₁ else n₂
    let m₂ := if last n₂ ≠ 0 then numNegate m₂ else m₂
    let m₁ := if same then m₂ else m₁
    let result := mulWords m₁ 0 (m₂.take (n₂.length - 1)) (List.replicate resSz 0)
    let result := if resSgn ≠ 0 then numNegate result else result
    trim (· = resSgn) result

/-- `num_mul` -/
def numMul (same : Bool) (n₁ n₂ : List ℕ) : List ℕ :=
  if n₂.length < n₁.length then mulOrdered same n₂ n₁ else mulOrdered same n₁ n₂

/-! ### Strings -/

/-- The value of a hex digit. -/
def digitOf (chr : ℕ) : Option ℕ :=
  if 97 ≤ chr ∧ chr ≤ 102 then some (chr - (97 - 10))
  else if 65 ≤ chr ∧ chr ≤ 70 then some (chr - (65 - 10))
  else if 48 ≤ chr ∧ chr ≤ 57 then some (chr - 48)
  else none

/-- The loop over the digits of a word. -/
def digitsLoop : ℕ → List ℕ → Option ℕ
  | current, [] => some current
  | current, chr :: arr => (digitOf chr).bind fun d => digitsLoop (wshl current 4 ||| d) arr

/-- The loop over the words of 16 digits; the last `n` words are still to come, and `os` digits
stand before the first one. -/
def wordsLoop (arr : List ℕ) (os : ℕ) : ℕ → Option (List ℕ)
  | 0 => some []
  | n + 1 => (digitsLoop 0 ((arr.drop (n * 16 + os)).take 16)).bind fun current =>
      (wordsLoop arr os n).map (current :: ·)

/-- `str_to_num` after the sign. -/
def digitsToNum (arr : List ℕ) : Option (List ℕ) :=
  let size := arr.length / 16
  let os := arr.length % 16
  (digitsLoop 0 (arr.take os)).bind fun c =>
    (wordsLoop arr os size).map fun finalNum =>
      (if c ≠ 0 ∨ ¬ (size ≠ 0 ∨ c ≠ 0) then finalNum ++ [c] else finalNum) ++ [0]

/-- `str_to_num` -/
def strToNum (num : List ℕ) : Option (List ℕ) :=
  match num with
  | [] => none
  | chr :: arr =>
    if chr = 45 then if arr.length = 0 then none else (digitsToNum arr).map numNegate
    else digitsToNum num

/-- A digit in `uintn_to_str`. -/
def digitChar (digit : ℕ) : ℕ :=
  let digit := digit + 48
  if 58 ≤ digit then
    let digit := digit + 7
    if 91 ≤ digit then digit + 6 else digit
  else digit

/-- The loop of `uintn_to_str`, with room for `n` digits more: the digits from the lowest one on. -/
def uintnLoop (base : ℕ) : ℕ → ℕ → Option (List ℕ)
  | n, num =>
    if num = 0 then some []
    else
      match n with
      | 0 => none
      | n + 1 => (uintnLoop base n (num / base)).map (digitChar (num % base) :: ·)

/-- `uintn_to_str` -/
def uintnToStr (bufSz num base : ℕ) : Option (List ℕ) :=
  if bufSz < 2 then none
  else if num = 0 then some [48]
  else (uintnLoop base (bufSz - 1) num).map List.reverse

/-- The words below the word `n`, each padded to 16 digits. -/
def paddedLoop (num : List ℕ) : ℕ → Option (List ℕ)
  | 0 => some []
  | n + 1 => (uintnToStr 17 (num.getD n 0) 16).bind fun buf =>
      (paddedLoop num n).map fun str => List.replicate (16 - buf.length) 48 ++ buf ++ str

/-- `num_to_str`: the string, and the number afterwards. With less than two words it reads outside
of the object, and there is no result. -/
def numToStr (num : List ℕ) : Option (List ℕ × List ℕ) :=
  if num.length < 2 then none
  else
    let sgn := last num
    let n := if sgn ≠ 0 then numNegate num else num
    (uintnToStr 17 (n.getD (n.length - 2) 0) 16).bind fun buf =>
      (paddedLoop n (n.length - 2)).map fun str =>
        ((if sgn ≠ 0 then [45] else []) ++ buf ++ str, if sgn ≠ 0 then numNegate n else n)

end LispMachine.Bignum
