import Mathlib.Logic.Function.Basic
import LispMachine.Lib.Run
import LispMachine.Reader

/-!
The evaluator of `lisp.c`: the loop of `_run_prog`, and the call that `run_prog_stack` starts.

The objects stand in a store that only grows: an object is named by its place in the store,
counted from 1, and 0 is the null pointer. Reference counts are left out, and so is what they
free. A namespace is the finite map that its set holds. Where the source would read through a
null pointer, past the end of an array or as an array what is none, there is no next state.
-/

namespace LispMachine.Interp

open LispMachine.Lib.Run LispMachine.Reader

/-- What `obj_cmp` compares: the words of an object. An array has none, and those of a function
are its own. -/
inductive Key
  | words (ws : List ℕ)
  | fn (r : ℕ)
  deriving DecidableEq

/-- A namespace. -/
abbrev Ns := Key → Option ℕ

/-- The objects. After a null pointer was appended to it an array has no elements to look at. -/
inductive Obj
  | str (ws : List ℕ)
  | num (ws : List ℕ)
  | bcode (ws : List ℕ)
  | arr (xs : Option (List ℕ))
  | fn (ns : Ns) (args exp : ℕ)

abbrev Store := List Obj

def deref (s : Store) : ℕ → Option Obj
  | 0 => none
  | r + 1 => s[r]?

def put (s : Store) (r : ℕ) (o : Obj) : Store := s.set (r - 1) o

def alloc (s : Store) (o : Obj) : Store × ℕ := (s ++ [o], s.length + 1)

/-- The key that an object is. -/
def Obj.key (r : ℕ) : Obj → Key
  | .str ws => .words ws
  | .num ws => .words ws
  | .bcode ws => .words ws
  | .arr _ => .words []
  | .fn _ _ _ => .fn r

def keyOf (s : Store) (r : ℕ) : Option Key := (deref s r).map (Obj.key r)

/-- The strings `sup` and `self`. -/
def sup : Key := .words [115, 117, 112]
def slf : Key := .words [115, 101, 108, 102]

/-! ### Arrays and namespaces -/

def elems (s : Store) (a : ℕ) : Option (List ℕ) :=
  match deref s a with
  | some (.arr xs) => xs
  | _ => none

def objArraySize (s : Store) (a : ℕ) : Option ℕ := (elems s a).map List.length

def objArrayIdx (s : Store) (a i : ℕ) : Option ℕ := (elems s a).bind (·[i]?)

/-- `obj_array_append`: what has lost its elements stays so. -/
def objArrayAppend (s : Store) (a r : ℕ) : Option Store :=
  match deref s a with
  | some (.arr xs) =>
    some (put s a (.arr (xs.bind fun xs => if r = 0 then none else some (xs ++ [r]))))
  | _ => none

def setObjArrayIdx (s : Store) (a i r : ℕ) : Option Store :=
  (elems s a).map fun xs => put s a (.arr (some (xs.set i r)))

/-- `set_add_str_key`: a key that is bound stays as it is. -/
def setAddStrKey (s : Store) (ns : Ns) (key : Option Key) (val : ℕ) : Option Ns :=
  key.bind fun k => (deref s val).map fun _ =>
    match ns k with
    | some _ => ns
    | none => Function.update ns k (some val)

/-- `set_remove_str_key`, less the pair it returns. -/
def setRemoveStrKey (ns : Ns) (k : Key) : Ns := Function.update ns k none

/-! ### Functions -/

/-- `new_fn` -/
def newFn (s : Store) (_sup : Option ℕ) (args exp : ℕ) : Option (Store × ℕ) :=
  (deref s args).bind fun _ => (deref s exp).bind fun _ =>
    (match _sup with
      | some p => setAddStrKey s (fun _ => none) (some sup) p
      | none => some fun _ => none).map fun ns => alloc s (.fn ns args exp)

/-- The loop of `get_val`, of `n` rounds at most: what is found, if anything is. -/
def getValLoop (s : Store) (k : Key) : ℕ → Ns → Option (Option ℕ)
  | 0, _ => none
  | n + 1, ns =>
    match ns sup with
    | none => some (ns k)
    | some p =>
      match deref s p with
      | none => none
      | some (.fn ns' _ _) =>
        match ns k with
        | some v => some (some v)
        | none => getValLoop s k n ns'
      | some _ => some (ns k)

/-- `get_val`; its loop takes `n` rounds at most. -/
def getVal (n : ℕ) (s : Store) (obj self : ℕ) : Option ℕ :=
  match deref s self with
  | some (.fn ns _ _) =>
    (keyOf s obj).bind fun k =>
      (getValLoop s k n ns).map fun
        | some v => v
        | none => if k = slf then self else 0
  | _ => none

/-- The arguments of a call, bound one by one. -/
def addArgs (s : Store) : List ℕ → List ℕ → Ns → Option Ns
  | [], _, ns => some ns
  | _ :: _, [], _ => none
  | k :: names, x :: xs, ns => (setAddStrKey s ns (keyOf s k) x).bind (addArgs s names xs)

/-- The new function of a call of a function with the parameters `names`. -/
def callFrame (s : Store) (ns : Ns) (args exp : ℕ) (names xs : List ℕ) : Option (Store × ℕ) :=
  (newFn s (ns sup) args exp).bind fun (s', tmp) =>
    match deref s' tmp with
    | some (.fn tmpNs _ _) =>
      (addArgs s names xs tmpNs).map fun tmpNs => (put s' tmp (.fn tmpNs args exp), tmp)
    | _ => none

/-- What runs beside the evaluator, with a state of its own: the assembler, the machine that
executes bytecode, and the collector, which says whether a function is given back. -/
structure Native (ω : Type) where
  compExpr : ω → Store → ℕ → Option (ω × Store × ℕ)
  runExpr : ω → Store → ℕ → Option (ω × Store × ℕ)
  gcDelObj : ω → Store → ℕ → Bool

/-- Nothing runs beside the evaluator. -/
def noNative : Native Unit := ⟨fun _ _ _ => none, fun _ _ _ => none, fun _ _ _ => false⟩

variable {ω : Type} (N : Native ω)

/-- `del_fn` -/
def delFn (w : ω) (s : Store) (fn : ℕ) : Option Store :=
  match deref s fn with
  | some (.fn ns args exp) =>
    match ns sup with
    | none => none
    | some p =>
      let ns := setRemoveStrKey ns sup
      let s' := put s fn (.fn ns 0 0)
      if N.gcDelObj w s' fn then some s'
      else (setAddStrKey s' ns (some sup) p).map fun ns => put s' fn (.fn ns args exp)
  | _ => none

/-! ### The loop -/

/-- The states of a frame. -/
inductive Label
  | cf | cfRet | df | ef | ef0 | ef1 | ccf | nf
  deriving DecidableEq

/-- The set `ops`. -/
def opState : Key → Option Label
  | .words [126] => some .df
  | .words [58] => some .cf
  | .words [62] => some .ef
  | .words [60] => some .ccf
  | .words [124] => some .nf
  | _ => none

/-- A frame; `opStk` has its last element at its head. -/
structure Frame where
  self : ℕ
  exp : ℕ
  tmp : ℕ := 0
  opStk : List ℕ := []
  old : ℕ := 0
  i : ℕ := 0
  state : Label

structure Config (ω : Type) where
  world : ω
  store : Store
  frames : List Frame
  ret : ℕ

variable (c : Config ω) (fr : Frame) (rest : List Frame)

/-- The state behind a `break`, where the frame is deleted. -/
def Config.exit (s : Store) (ret : ℕ) : Config ω := { c with store := s, frames := rest, ret }

def stepCf (n : ℕ) : Option (Config ω) :=
  match deref c.store fr.exp with
  | none => none
  | some (.arr xs) =>
    xs.bind fun
      | [] => none
      | f :: xs =>
        match deref c.store f with
        | some (.bcode _) =>
          (N.runExpr c.world c.store fr.exp).map fun (w, s, ret) =>
            { c.exit rest s ret with world := w }
        | some (.fn ns args exp) =>
          (elems c.store args).bind fun names =>
            if xs.length = names.length then
              (callFrame c.store ns args exp names xs).map fun (s, tmp) =>
                { c with
                  store := s
                  frames := { self := tmp, exp, state := .ef } ::
                    { fr with state := .cfRet, tmp } :: rest }
            else some (c.exit rest c.store 0)
        | _ => none
  | some _ => (getVal n c.store fr.exp fr.self).map (c.exit rest c.store)

def stepCfRet : Option (Config ω) :=
  (deref c.store c.ret).bind fun _ =>
    (delFn N c.world c.store fr.tmp).bind fun s =>
      (objArraySize s c.ret).bind fun len =>
        if len ≠ 0 then
          (objArrayIdx s c.ret (len - 1)).bind fun ret =>
            (deref s ret).bind fun _ =>
              (setObjArrayIdx s c.ret (len - 1) 0).map fun s => c.exit rest s ret
        else some (c.exit rest s 0)

def stepDf : Option (Config ω) :=
  (objArrayIdx c.store fr.exp 0).bind fun args =>
    (objArrayIdx c.store fr.exp 1).bind fun exp =>
      (newFn c.store (some fr.self) args exp).map fun (s, ret) => c.exit rest s ret

/-- The loop over the elements of a list from `i` on: the first that is no operator, its index, and
the operators before it. -/
def opLoop (ops : Key → Option Label) (s : Store) : List ℕ → ℕ → List ℕ → Option (ℕ × ℕ × List ℕ)
  | [], _, _ => none
  | x :: xs, i, stk =>
    (keyOf s x).bind fun k =>
      if (ops k).isSome then opLoop ops s xs (i + 1) (x :: stk) else some (x, i, stk)

def stepEf1 : Option (Config ω) :=
  match fr.opStk with
  | op :: opStk =>
    (deref c.store c.ret).bind fun _ => ((keyOf c.store op).bind opState).map fun state =>
      { c with
        frames := { self := fr.self, exp := c.ret, state } ::
          { fr with opStk, old := c.ret } :: rest }
  | [] =>
    (objArrayAppend c.store fr.tmp c.ret).bind fun s =>
      (objArraySize s fr.exp).map fun size =>
        if fr.i + 1 ≥ size then c.exit rest s fr.tmp
        else { c with store := s, frames := { fr with i := fr.i + 1, state := .ef0 } :: rest }

def stepEf0 : Option (Config ω) :=
  (elems c.store fr.exp).bind fun xs =>
    (opLoop opState c.store (xs.drop fr.i) fr.i fr.opStk).bind fun (ret, i, opStk) =>
      stepEf1 { c with ret } { fr with i, opStk, state := .ef1, old := 0 } rest

def stepEf : Option (Config ω) :=
  match deref c.store fr.exp with
  | none => none
  | some (.arr xs) =>
    xs.bind fun xs =>
      if fr.i ≥ xs.length then some (c.exit rest c.store c.ret)
      else
        let (s, tmp) := alloc c.store (.arr (some []))
        stepEf0 { c with store := s } { fr with tmp, opStk := [] } rest
  | some _ => some (c.exit rest c.store c.ret)

def stepCcf : Option (Config ω) :=
  (N.compExpr c.world c.store fr.exp).map fun (w, s, ret) => { c.exit rest s ret with world := w }

def stepNf : Option (Config ω) :=
  match deref c.store fr.self with
  | some (.fn ns args exp) =>
    (objArrayIdx c.store fr.exp 0).bind fun key =>
      (keyOf c.store key).bind fun k =>
        (objArrayIdx c.store fr.exp 1).bind fun ret =>
          (setAddStrKey c.store (setRemoveStrKey ns k) (some k) ret).map fun ns =>
            c.exit rest (put c.store fr.self (.fn ns args exp)) ret
  | _ => none

/-- A round of the loop of `_run_prog`, in which that of `get_val` takes `n` rounds at most. -/
def step (n : ℕ) : Option (Config ω) :=
  match c.frames with
  | [] => none
  | fr :: rest =>
    match fr.state with
    | .cf => stepCf N c fr rest n
    | .cfRet => stepCfRet N c fr rest
    | .df => stepDf c fr rest
    | .ef => stepEf c fr rest
    | .ef0 => stepEf0 c fr rest
    | .ef1 => stepEf1 c fr rest
    | .ccf => stepCcf N c fr rest
    | .nf => stepNf c fr rest

/-- A number of rounds. -/
def rounds (n : ℕ) : ℕ → Config ω → Option (Config ω)
  | 0, c => some c
  | m + 1, c => (step N c n).bind (rounds n m)

/-! ### The start of a run -/

mutual
/-- The objects of a tree of tokens. -/
def load (s : Store) : Tree → Store × ℕ
  | .str ws => alloc s (.str ws)
  | .num ws => alloc s (.num ws)
  | .arr ts => let (s, xs) := loadList s ts; alloc s (.arr (some xs))
def loadList (s : Store) : List Tree → Store × List ℕ
  | [] => (s, [])
  | t :: ts => let (s, x) := load s t; let (s, xs) := loadList s ts; (s, x :: xs)
end

/-- The state in which `run_prog_stack` starts `_run_prog` for the tokens of a program; `stack` and
`heap` are the words that the program is called with. -/
def runProgStack (w : ω) (ts : List Tree) (stack heap : ℕ) : Option (Config ω) :=
  let (s, exp) := load [] (.arr ts)
  let (s, argLst) := load s (.arr [.str [83, 84, 65, 67, 75], .str [72, 69, 65, 80]])
  (newFn s none argLst exp).map fun (s, main) =>
    let (s, stack) := alloc s (.num [stack, 0])
    let (s, heap) := alloc s (.num [heap, 0])
    let (s, expr) := alloc s (.arr (some [main, stack, heap]))
    { world := w, store := s, frames := [{ self := main, exp := expr, state := .cf }], ret := 0 }

end LispMachine.Interp
