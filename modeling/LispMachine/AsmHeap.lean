import LispMachine.Asm
import LispMachine.Object

/-!
The assembler of `asm.c` with its three arrays on the heap.

An array is a used block: its header word, `used_sz`, `item_sz` and the data, and is given by the
address of its data. A request for memory may be refused whatever the heap has: the list of the
state says which of the next ones are. Reading the text only changes the index into it, so a round
of the loop reads its statement first, and then appends to the arrays in the order of the source.
-/

namespace LispMachine.AsmHeap

open LispMachine.Memory LispMachine.Alloc LispMachine.Heap
open LispMachine.Asm (LblInfo whitespace ignoreWhitespace ignoreNonWhitespace expectWhitespace
  expectWhitespaceOrEnd expectHexFromStr matchOpcode compileArgs compileLast opcodeStart nArgs
  lblStreq)

/-- The heap, which of the next requests for memory are refused, and the addresses given back so
far. The machine keeps neither list. -/
structure ASt where
  heap : HSt
  refused : List Bool
  freed : List ℕ

namespace ASt

/-- `alloc` -/
def alloc (s : ASt) (heap n : ℕ) : Option (ASt × ℕ) :=
  if s.refused.headD false then some (⟨s.heap, s.refused.tail, s.freed⟩, 0)
  else (s.heap.alloc heap n).map fun (t, a) => (⟨t, s.refused.tail, s.freed⟩, a)

/-- `realloc`, which asks for a new block first -/
def realloc (s : ASt) (heap a n : ℕ) : Option (ASt × ℕ) :=
  if s.refused.headD false then some (⟨s.heap, s.refused.tail, s.freed⟩, 0)
  else (s.heap.realloc heap a n).map fun (t, a') =>
    (⟨t, s.refused.tail, if a' = 0 then s.freed else a :: s.freed⟩, a')

/-- `free` -/
def free (s : ASt) (heap a : ℕ) : Option ASt :=
  (s.heap.free heap a).map fun t => ⟨t, s.refused, a :: s.freed⟩

def set (s : ASt) (x v : ℕ) : ASt := { s with heap := s.heap.set x v }

end ASt

/-! ### Arrays -/

def arrayBsz : ℕ := 2

/-- The block of an array. -/
def memAddr (arr : ℕ) : ℕ := arr - arrayBsz

/-- `handle->used_sz` -/
def usedSz (arr : ℕ) : ℕ := memAddr arr

/-- `handle->item_sz` -/
def itemSz (arr : ℕ) : ℕ := memAddr arr + 1

/-- `array` -/
def array (heap : ℕ) (s : ASt) (size item : ℕ) : Option (ASt × ℕ) :=
  (s.alloc heap (size * item + arrayBsz)).map fun (s, mem) =>
    if mem = 0 then (s, 0)
    else
      let arr := mem + arrayBsz
      ((s.set (usedSz arr) 0).set (itemSz arr) item, arr)

/-- `array_len` -/
def arrayLen (m : Mem) (arr : ℕ) : ℕ := m (usedSz arr) / m (itemSz arr)

/-- The loop of `array_find`, for `n` items from the address `ptr` on. -/
def arrayFind (m : Mem) (eq : ℕ → Bool) (arr : ℕ) : ℕ → ℕ → ℕ
  | 0, _ => 0
  | n + 1, ptr => if eq ptr then ptr else arrayFind m eq arr n (ptr + m (itemSz arr))

/-- The loop of `array_append` that copies the first `n` words of the item. -/
def copyItem (dst : ℕ) (item : List ℕ) : ℕ → ASt → ASt
  | 0, s => s
  | n + 1, s => (copyItem dst item n s).set (dst + n) (item.getD n 0)

/-- `array_append` -/
def arrayAppend (heap : ℕ) (s : ASt) (arr : ℕ) (item : List ℕ) : Option (ASt × ℕ) :=
  let trueMemSz := getMemSz s.heap.mem (memAddr arr)
  let memSz := trueMemSz - arrayBsz
  let used := s.heap.mem (usedSz arr)
  let sz := s.heap.mem (itemSz arr)
  (if memSz < used + sz then
    (s.realloc heap (memAddr arr) (trueMemSz + memSz / 2 + sz)).map fun (s, mem) =>
      (s, if mem = 0 then 0 else mem + arrayBsz)
  else some (s, arr)).map fun (s, arr) =>
    if arr = 0 then (s, 0)
    else
      let s := copyItem (arr + used) item sz s
      (s.set (usedSz arr) (wadd (s.heap.mem (usedSz arr)) sz), arr)

/-- `array_delete` -/
def arrayDelete (heap : ℕ) (s : ASt) (arr : ℕ) : Option ASt := s.free heap (memAddr arr)

/-! ### Statements -/

/-- What a round of the loop reads. -/
inductive Stmt
  | error
  | data (w idx : ℕ)
  | label (idx : ℕ)
  | instr (w : ℕ) (ref : Option ℕ) (idx : ℕ)

/-- The statement that begins at an index. -/
def readStmt (code : List ℕ) (instrBegin : ℕ) : Stmt :=
  let (e₁, idx, output) := expectHexFromStr code instrBegin (wordMod - 1)
  let (e₂, idx) := expectWhitespaceOrEnd code idx
  if e₁ || e₂ then
    let (e₁, idx, output) := matchOpcode code instrBegin
    let (e₂, idx) := expectWhitespace code idx
    if e₁ || e₂ then
      .label (ignoreWhitespace code (ignoreNonWhitespace code instrBegin))
    else
      let n := nArgs output
      match compileArgs code (if n ≠ 0 then n - 1 else 0) idx (wshl output opcodeStart)
        opcodeStart with
      | none => .error
      | some (idx, instr, instrIdx) =>
        let (idx, instr, ref) :=
          if n ≠ 0 then compileLast code n idx instr instrIdx else (idx, instr, none)
        .instr instr ref (ignoreWhitespace code idx)
  else .data output idx

/-! ### The compiler -/

/-- The variables of `compile`: the arrays, and the two counters. -/
structure Vars where
  arr : ℕ
  lblRefs : ℕ
  lbls : ℕ
  prgmCtr : ℕ
  idx : ℕ

/-- The address of a character of the text at `base`, as a word. -/
def charPtr (base i : ℕ) : ℕ := 8 * (base + i)

/-- A label as an item of an array. -/
def lblItem (base : ℕ) (l : LblInfo) : List ℕ := [charPtr base l.label, l.addr]

/-- The state, the variables, and whether `compile` goes to its error exit. -/
abbrev Round := ASt × Vars × Bool

/-- A value is appended to one of the arrays, which is then held by its variable. -/
def append (heap : ℕ) (s : ASt) (v : Vars) (arr : ℕ) (item : List ℕ) (store : ℕ → Vars) :
    Option Round :=
  (arrayAppend heap s arr item).map fun (s, tmpArr) =>
    if tmpArr = 0 then (s, v, true) else (s, store tmpArr, false)

/-- The loop body of `compile`. -/
def compileStep (heap base : ℕ) (code : List ℕ) (s : ASt) (v : Vars) : Option Round :=
  match readStmt code v.idx with
  | .error => some (s, v, true)
  | .data w idx => append heap s v v.arr [w] fun arr =>
      { v with arr := arr, prgmCtr := v.prgmCtr + 1, idx := idx }
  | .label idx =>
    let lbl : LblInfo := ⟨v.idx, v.prgmCtr⟩
    -- `ref_eq`
    let found := arrayFind s.heap.mem (fun ptr => s.heap.mem ptr = charPtr base lbl.label) v.lbls
      (arrayLen s.heap.mem v.lbls) v.lbls
    if found = 0 then append heap s v v.lbls (lblItem base lbl) fun lbls =>
      { v with lbls := lbls, idx := idx }
    else some (s, { v with idx := idx }, false)
  | .instr w ref idx =>
    (match ref with
      | some label => append heap s v v.lblRefs (lblItem base ⟨label, v.prgmCtr⟩) fun refs =>
          { v with lblRefs := refs }
      | none => some (s, v, false)).bind fun (s, v, e) =>
        if e then some (s, v, true)
        else append heap s v v.arr [w] fun arr =>
          { v with arr := arr, prgmCtr := v.prgmCtr + 1, idx := idx }

/-- The loop of `compile`. -/
def compileLoop (heap base : ℕ) (code : List ℕ) : ℕ → ASt → Vars → Option Round
  | 0, _, _ => none
  | n + 1, s, v =>
    if v.idx < code.length then
      (compileStep heap base code s v).bind fun (s, v, e) =>
        if e then some (s, v, true) else compileLoop heap base code n s v
    else some (s, v, false)

/-- The label at `ptr`, with its place in the text. -/
def lblAt (m : Mem) (base ptr : ℕ) : LblInfo := ⟨m ptr / 8 - base, m (ptr + 1)⟩

/-- The loop that resolves the label references, for `n` of them from the one at `ref` on: the
state, and whether there is one that is not defined. -/
def resolve (base : ℕ) (code : List ℕ) (v : Vars) : ℕ → ℕ → ASt → ASt × Bool
  | 0, _, s => (s, false)
  | n + 1, ref, s =>
    let m := s.heap.mem
    let ptr := arrayFind m (fun ptr => lblStreq code (lblAt m base ref) (lblAt m base ptr)) v.lbls
      (arrayLen m v.lbls) v.lbls
    if ptr = 0 then (s, true)
    else
      let word := v.arr + (lblAt m base ref).addr
      resolve base code v n (ref + 2) (s.set word (m word ||| (lblAt m base ptr).addr))

/-- The error exit of `compile` with all the arrays. -/
def fail (heap : ℕ) (s : ASt) (v : Vars) : Option (ASt × ℕ) :=
  (arrayDelete heap s v.lbls).bind fun s =>
  (arrayDelete heap s v.lblRefs).bind fun s =>
  (arrayDelete heap s v.arr).map fun s => (s, 0)

/-- `compile` after the arrays were made. -/
def compileText (heap base : ℕ) (code : List ℕ) (s : ASt) (v : Vars) : Option (ASt × ℕ) :=
  (compileLoop heap base code (code.length + 1) s v).bind fun (s, v, e) =>
    if e then fail heap s v
    else
      let (s, e) := resolve base code v (arrayLen s.heap.mem v.lblRefs) v.lblRefs s
      if e then fail heap s v
      else
        (arrayDelete heap s v.lbls).bind fun s =>
        (arrayDelete heap s v.lblRefs).map fun s => (s, v.arr)

/-- `compile` of the text `code` at `base` -/
def compile (heap : ℕ) (s : ASt) (base : ℕ) (code : List ℕ) : Option (ASt × ℕ) :=
  let codeSz := code.length
  if codeSz = 0 ∨ heap = 0 ∨ base = 0 then some (s, 0)
  else
    (array heap s (codeSz / 32) 1).bind fun (s, arr) =>
      if arr = 0 then some (s, 0)
      else
        (array heap s (codeSz / 8) 2).bind fun (s, lblRefs) =>
          if lblRefs = 0 then (arrayDelete heap s arr).map fun s => (s, 0)
          else
            (array heap s (codeSz / 8) 2).bind fun (s, lbls) =>
              if lbls = 0 then
                (arrayDelete heap s lblRefs).bind fun s =>
                (arrayDelete heap s arr).map fun s => (s, 0)
              else
                compileText heap base code s ⟨arr, lblRefs, lbls, 0, ignoreWhitespace code 0⟩

end LispMachine.AsmHeap
