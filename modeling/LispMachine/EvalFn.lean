import LispMachine.Interp

/-!
The recursive evaluator of `lisp.c`: `eval_fn`, `call_fn`, `def_fn` and `name_fn`.

Recursion is cut off at a depth. Checks may be made at each call, of the body before it is
evaluated and of the function when it returns, and of each value of an element; the source makes
none.
-/

namespace LispMachine.EvalFn

open LispMachine.Interp

/-- What is checked of the body at a call, of the function at its return, and of the values of
elements. -/
structure Check where
  call : Store → ℕ → Bool
  ret : Store → ℕ → Bool
  value : ℕ → Bool

/-- No check. -/
def Check.none : Check := ⟨fun _ _ => true, fun _ _ => true, fun _ => true⟩

/-- `def_fn` -/
def defFn (s : Store) (val self : ℕ) : Option (Store × ℕ) :=
  (objArrayIdx s val 0).bind fun args =>
    (objArrayIdx s val 1).bind fun exp => newFn s (some self) args exp

/-- `name_fn` -/
def nameFn (s : Store) (val self : ℕ) : Option (Store × ℕ) :=
  match deref s self with
  | some (.fn ns args exp) =>
    (objArrayIdx s val 0).bind fun key =>
      (keyOf s key).bind fun k =>
        (objArrayIdx s val 1).bind fun res =>
          (setAddStrKey s (setRemoveStrKey ns k) (some k) res).map fun ns =>
            (put s self (.fn ns args exp), res)
  | _ => none

/-- What `call_fn` returns of the list that a body was evaluated to. -/
def result (s : Store) (result : ℕ) : Option (Store × ℕ) :=
  (objArraySize s result).bind fun len =>
    if len ≠ 0 then
      (objArrayIdx s result (len - 1)).bind fun ret =>
        (deref s ret).bind fun _ =>
          (setObjArrayIdx s result (len - 1) 0).map fun s => (s, ret)
    else some (s, 0)

variable (chk : Check) (eval : Store → ℕ → ℕ → Option (Store × ℕ))

/-- `call_fn`, with lookups of `n` rounds at most. -/
def callFn (n : ℕ) (s : Store) (args self : ℕ) : Option (Store × ℕ) :=
  match deref s args with
  | none => none
  | some (.arr xs) =>
    xs.bind fun
      | [] => none
      | f :: xs =>
        match deref s f with
        | some (.fn ns argNames exp) =>
          (elems s argNames).bind fun names =>
            if xs.length = names.length then
              (callFrame s ns argNames exp names xs).bind fun (s, tmp) =>
                if chk.call s exp then
                  (eval s exp tmp).bind fun (s, res) =>
                    (deref s res).bind fun _ => if chk.ret s tmp then result s res else none
                else none
            else some (s, 0)
        | _ => none
  | some _ => (getVal n s args self).map fun v => (s, v)

/-- The set `ops`, as `run_prog` makes it. -/
def ops : Key → Option Label
  | .words [126] => some .df
  | .words [58] => some .cf
  | .words [62] => some .ef
  | .words [124] => some .nf
  | _ => none

/-- The function of an operator. -/
def operation (n : ℕ) (op : Label) (s : Store) (val self : ℕ) : Option (Store × ℕ) :=
  match op with
  | .df => defFn s val self
  | .cf => callFn chk eval n s val self
  | .ef => eval s val self
  | .nf => nameFn s val self
  | _ => none

/-- The loop of `eval_fn` over the operators of an element. -/
def opsLoop (n self : ℕ) : List ℕ → Store → ℕ → Option (Store × ℕ)
  | [], s, tmp2 => some (s, tmp2)
  | op :: stk, s, tmp2 =>
    ((keyOf s op).bind ops).bind fun o =>
      (deref s tmp2).bind fun _ =>
        (operation chk eval n o s tmp2 self).bind fun (s, tmp2) => opsLoop n self stk s tmp2

/-- The loop of `eval_fn` over the elements of a list, of `k` rounds at most. -/
def evalLoop (n exp self tmp : ℕ) : ℕ → Store → ℕ → Option Store
  | 0, _, _ => none
  | k + 1, s, i =>
    (elems s exp).bind fun xs =>
      if i < xs.length then
        (opLoop ops s (xs.drop i) i []).bind fun (tmp2, i, opStack) =>
          (opsLoop chk eval n self opStack s tmp2).bind fun (s, tmp2) =>
            if chk.value tmp2 then
              (objArrayAppend s tmp tmp2).bind fun s => evalLoop n exp self tmp k s (i + 1)
            else none
      else some s

/-- `eval_fn`, with calls `n` deep and loops of `n` rounds at most. -/
def evalFn (chk : Check) : ℕ → Store → ℕ → ℕ → Option (Store × ℕ)
  | 0, _, _, _ => none
  | n + 1, s, exp, self =>
    match deref s exp with
    | none => none
    | some (.arr _) =>
      let (s, tmp) := alloc s (.arr (some []))
      (evalLoop chk (evalFn chk n) n exp self tmp n s 0).map fun s => (s, tmp)
    | some _ => some (s, exp)

end LispMachine.EvalFn
