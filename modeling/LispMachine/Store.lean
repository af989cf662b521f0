import LispMachine.Asm
import LispMachine.Bignum
import LispMachine.Object
import Mathlib.Logic.Function.Basic

/-!
Objects and the references between them.

An object is a record at an address; the memory suffices, a new object gets an address that no
object had before, and one that grows keeps its own. Where there is no object, or none any more,
reading and writing is a fault and has no result.
-/

namespace LispMachine.Store

open LispMachine.Memory
open LispMachine.Object (Types)

/-- `Object`, without the size of its block -/
structure Obj where
  refcount : ℕ
  type : ℕ
  size : ℕ
  contents : ℕ → ℕ

namespace Obj

def words (o : Obj) : List ℕ := (List.range o.size).map o.contents

/-- `o->contents[i] = v` -/
def setWord (o : Obj) (i v : ℕ) : Obj := { o with contents := Function.update o.contents i v }

/-- `++o->refcount`, or more -/
def incr (n : ℕ) (o : Obj) : Obj := { o with refcount := wadd o.refcount n }

/-- An object with these words. -/
def ofWords (refcount type : ℕ) (ws : List ℕ) : Obj :=
  ⟨refcount, type, ws.length, fun i => ws.getD i 0⟩

end Obj

/-- The objects, and the address of the next one. -/
structure St where
  objs : ℕ → Option Obj
  next : ℕ

namespace St

def put (s : St) (a : ℕ) (o : Obj) : St := { s with objs := Function.update s.objs a (some o) }

/-- `_object_delete` -/
def free (s : St) (a : ℕ) : Option St :=
  (s.objs a).map fun _ => { s with objs := Function.update s.objs a none }

def incr (s : St) (a n : ℕ) : Option St := (s.objs a).map fun o => s.put a (o.incr n)

end St

variable (ty : Types)

/-! ### Objects -/

/-- Whether `obj_cmp` returns 0. -/
def objEq (s : St) (obj₁ obj₂ : ℕ) : Option Bool :=
  (s.objs obj₁).bind fun o₁ => (s.objs obj₂).map fun o₂ => o₁.words = o₂.words

/-- Whether the object is of a type. -/
def isType (s : St) (o : Obj) (type : ℕ) : Option Bool := objEq s o.type type

/-- `object`, with the contents copied from elsewhere -/
def object (s : St) (type : ℕ) (contents : List ℕ) : Option (St × ℕ) :=
  let obj := s.next
  ((⟨s.objs, s.next + 8⟩ : St).put obj (.ofWords 0 type contents)).incr type 1 |>.map (·, obj)

/-- `object_append_word` -/
def objectAppendWord (s : St) (obj data : ℕ) : Option (St × ℕ) :=
  if obj = 0 then some (s, 0)
  else (s.objs obj).map fun o => (s.put obj { o.setWord o.size data with size := o.size + 1 }, obj)

/-- `object_append` -/
def objectAppend (s : St) (obj data : ℕ) : Option (St × ℕ) :=
  if obj = 0 ∨ data = 0 then some (s, 0)
  else (s.incr data 1).bind fun s => objectAppendWord s obj data

/-- Words are appended one after the other. -/
def appendWords : List ℕ → St → ℕ → Option (St × ℕ)
  | [], s, obj => some (s, obj)
  | w :: ws, s, obj => (objectAppendWord s obj w).bind fun (s, obj) => appendWords ws s obj

/-! ### Lists -/

/-- `obj_array` -/
def objArray (s : St) : Option (St × ℕ) :=
  (object s ty.subarrayType []).bind fun (s, arr) =>
  (s.incr arr 1).bind fun s =>
  (object s ty.arrayType []).bind fun (s, ret) =>
  (s.objs ret).map fun r => (s.put ret (r.setWord 0 arr), ret)

/-- `obj_array_size` -/
def objArraySize (s : St) (arr : ℕ) : Option ℕ :=
  (s.objs arr).bind fun a => (s.objs (a.contents 0)).map Obj.size

/-- `obj_array_idx` -/
def objArrayIdx (s : St) (arr idx : ℕ) : Option ℕ :=
  (s.objs arr).bind fun a => (s.objs (a.contents 0)).map fun obj => obj.contents idx

/-- `obj_array_append` -/
def objArrayAppend (s : St) (arr data : ℕ) : Option St :=
  (s.objs arr).bind fun a =>
  (objectAppend s (a.contents 0) data).bind fun (s, obj) =>
  (s.objs arr).map fun a => s.put arr (a.setWord 0 obj)

/-- The loop of `_obj_array_flatten`, for `k` elements from the element `i` on. -/
def flattenLoop (flatten : St → ℕ → Option St) (ret obj : ℕ) : ℕ → ℕ → St → Option St
  | 0, _, s => some s
  | k + 1, i, s =>
    (objArrayIdx s obj i).bind fun exp =>
    (s.objs exp).bind fun e =>
    (isType s e ty.arrayType).bind fun isArray =>
    (if isArray then flatten s exp else objArrayAppend s ret exp).bind
      (flattenLoop flatten ret obj k (i + 1))

/-- `_obj_array_flatten`, for lists nested less than `n` deep -/
def flatten (ret : ℕ) : ℕ → St → ℕ → Option St
  | 0, _, _ => none
  | n + 1, s, obj =>
    (objArraySize s obj).bind fun size => flattenLoop ty (flatten ret n) ret obj size 0 s

/-- `obj_array_flatten` -/
def objArrayFlatten (n : ℕ) (s : St) (obj : ℕ) : Option (St × ℕ) :=
  (objArray ty s).bind fun (s, ret) => (flatten ty ret n s obj).map (·, ret)

/-! ### Deletion -/

/-- The loops that delete the contents of an object, for `k` words from the word `i` on. -/
def deleteContents (delete : St → ℕ → Option St) (obj : ℕ) : ℕ → ℕ → St → Option St
  | 0, _, s => some s
  | k + 1, i, s =>
    (s.objs obj).bind fun o => (delete s (o.contents i)).bind (deleteContents delete obj k (i + 1))

/-- `obj_array_delete` -/
def objArrayDelete (delete : St → ℕ → Option St) (s : St) (obj : ℕ) : Option St :=
  (s.objs obj).bind fun o =>
  let arr := o.contents 0
  (s.objs arr).bind fun a =>
  (delete s a.type).bind fun s =>
  (s.free obj).bind fun s =>
  (s.objs arr).bind fun a =>
  let refcount := wsub a.refcount 1
  let s := s.put arr { a with refcount := refcount }
  if refcount ≠ 0 then some s
  else (deleteContents delete arr a.size 0 s).bind fun s => s.free arr

/-- `object_delete`, for references that go less than `n` deep; `set_delete` is given. -/
def objectDelete (setDelete : St → ℕ → Option St) : ℕ → St → ℕ → Option St
  | 0, _, _ => none
  | n + 1, s, obj =>
    if obj = 0 then some s
    else
      (s.objs obj).bind fun o =>
      let refcount := wsub o.refcount 1
      let s := s.put obj { o with refcount := refcount }
      if refcount ≠ 0 then some s
      else
        (isType s o ty.numType).bind fun isNum =>
        (isType s o ty.stringType).bind fun isString =>
        (isType s o ty.bcodeType).bind fun isBcode =>
        (isType s o ty.setType).bind fun isSet =>
        (isType s o ty.cellType).bind fun isCell =>
        (isType s o ty.subarrayType).bind fun isSubarray =>
        (isType s o ty.arrayType).bind fun isArray =>
        (isType s o ty.functionType).bind fun isFunction =>
        let delete := objectDelete setDelete n
        if isNum || isString || isBcode then (s.free obj).bind fun s => delete s o.type
        else if isSet then (setDelete s obj).bind fun s => delete s o.type
        else if isCell || isSubarray then
          (deleteContents delete obj o.size 0 s).bind fun s =>
          (s.free obj).bind fun s => delete s o.type
        else if isArray then (objArrayDelete delete s obj).bind fun s => delete s o.type
        else if isFunction then some s
        else delete s o.type

/-- `o_del` -/
def oDel (setDelete : St → ℕ → Option St) (n : ℕ) (s : St) (obj : ℕ) : Option St :=
  (s.incr obj 1).bind fun s => objectDelete ty setDelete n s obj

/-! ### Numbers -/

/-- `word_to_num` -/
def wordToNum (s : St) (w : ℕ) : Option (St × ℕ) :=
  (object s ty.numType []).bind fun (s, obj) =>
  (s.objs obj).map fun o =>
    (s.put obj { (o.setWord 0 w).setWord 1 0 with size := 2 }, obj)

/-- The words of a number are written back. -/
def setWords (o : Obj) (ws : List ℕ) : Obj :=
  { o with contents := fun i => if i < o.size then ws.getD i 0 else o.contents i }

/-- `num_to_str` -/
def numToStr (s : St) (num : ℕ) : Option (St × ℕ) :=
  (object s ty.stringType []).bind fun (s, string) =>
  (s.objs num).bind fun n =>
  (Bignum.numToStr n.words).bind fun (str, ws) =>
  appendWords str (s.put num (setWords n ws)) string

/-! ### Expressions -/

/-- The string of a word: `word_to_num`, `num_to_str` and `o_del`. -/
def wordToStr (setDelete : St → ℕ → Option St) (n : ℕ) (s : St) (w : ℕ) : Option (St × ℕ) :=
  (wordToNum ty s w).bind fun (s, tmpNum) =>
  (numToStr ty s tmpNum).bind fun (s, tmpStr) =>
  (oDel ty setDelete n s tmpNum).map (·, tmpStr)

/-- `(word)o->contents/sizeof(word)`, of the object at an address -/
def contentsWord (obj : ℕ) : ℕ := (obj + 32) / 8

/-- The string that stands for an element: `tmp_str`. -/
def elementStr (setDelete : St → ℕ → Option St) (n : ℕ) (s : St) (exp : ℕ) : Option (St × ℕ) :=
  (s.objs exp).bind fun e =>
  (isType s e ty.numType).bind fun isNum =>
  (isType s e ty.bcodeType).bind fun isBcode =>
  (isType s e ty.stringType).bind fun isString =>
  if isNum then numToStr ty s exp
  else if isBcode then wordToStr ty setDelete n s (contentsWord exp)
  else if isString then some (s, exp)
  else wordToStr ty setDelete n s exp

/-- The loop of `comp_expr`, for `k` elements from the element `i` on: the string. -/
def exprLoop (setDelete : St → ℕ → Option St) (n tmp : ℕ) : ℕ → ℕ → St → ℕ → Option (St × ℕ)
  | 0, _, s, string => some (s, string)
  | k + 1, i, s, string =>
    (objArrayIdx s tmp i).bind fun exp =>
    (elementStr ty setDelete n s exp).bind fun (s, tmpStr) =>
    (s.objs tmpStr).bind fun t =>
    (appendWords t.words s string).bind fun (s, string) =>
    (objectAppendWord s string 32).bind fun (s, string) =>
    (if tmpStr ≠ exp then oDel ty setDelete n s tmpStr else some s).bind fun s =>
      exprLoop setDelete n tmp k (i + 1) s string

/-- `comp_expr`. What `compile` returns is an array, or null, which has no length. -/
def compExpr (setDelete : St → ℕ → Option St) (n : ℕ) (s : St) (val : ℕ) : Option (St × ℕ) :=
  (objArrayFlatten ty n s val).bind fun (s, tmp) =>
  (object s ty.stringType []).bind fun (s, string) =>
  (objArraySize s tmp).bind fun tmpSz =>
  (exprLoop ty setDelete n tmp tmpSz 0 s string).bind fun (s, string) =>
  (oDel ty setDelete n s tmp).bind fun s =>
  (s.objs string).bind fun str =>
  let bc := Asm.compile str.words
  (oDel ty setDelete n s string).bind fun s =>
  bc.bind fun bc =>
  (object s ty.bcodeType bc).bind fun (s, ret) =>
  (s.objs ret).map fun r =>
    (s.put ret { r.setWord bc.length 0 with size := r.size + 1 }, ret)

end LispMachine.Store
