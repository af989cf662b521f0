import LispMachine.Asm
import Mathlib.Data.List.DropRight

/-!
The compiler `compile.py`, from nested lists to the text that the assembler reads.

A text is a list of characters, as in the assembler. Where the source raises an exception, or would
join a text and `None`, there is no result. What `int` takes for a number depends on two of
Python's tables of characters, which are parameters.
-/

namespace LispMachine.CompilePy

open LispMachine.Memory LispMachine.Asm

abbrev Text := List ℕ

/-- `hex(n)[2:]` and `str(n)` -/
def hex (n : ℕ) : Text := (Nat.toDigits 16 n).map Char.toNat
def str (n : ℕ) : Text := (Nat.toDigits 10 n).map Char.toNat

/-- `to_hex` -/
def toHex (val : ℤ) : Text := if val < 0 then chars "-" ++ hex val.natAbs else hex val.natAbs

/-! ### The reader -/

/-- What Python knows of the characters that are not ASCII: the spaces, and the digits. -/
structure Unicode where
  space : ℕ → Bool
  decimal : ℕ → Option ℕ

/-- The ASCII character that `int` reads in place of a character. -/
def Unicode.ascii (u : Unicode) (c : ℕ) : ℕ :=
  if c < 128 then c
  else if u.space c then 32
  else match u.decimal c with
    | some d => 48 + d
    | none => 63

/-- The spaces that `int` strips. -/
def isSpace (c : ℕ) : Bool := c = 32 || (9 ≤ c && c ≤ 13)

/-- The digits of a number, with single underscores between them; `sep` says whether a digit must
come next. -/
def digits (sep : Bool) (n : ℕ) : Text → Option ℕ
  | [] => if sep then none else some n
  | c :: t =>
    if c = 95 then (if sep then none else digits true n t)
    else (hexDigit c).bind fun d => digits false (16 * n + d) t

/-- The digits after a prefix. -/
def prefixed (t : Text) : Option ℕ :=
  match t with
  | 48 :: x :: t =>
    if x = 120 ∨ x = 88 then
      match t with
      | 95 :: t => digits true 0 t
      | t => digits true 0 t
    else digits true 0 (48 :: x :: t)
  | t => digits true 0 t

/-- `int(t, 16)` -/
def pyInt (u : Unicode) (t : Text) : Option ℤ :=
  let t := ((t.map u.ascii).dropWhile isSpace).rdropWhile isSpace
  match t with
  | 43 :: t => (prefixed t).map Int.ofNat
  | 45 :: t => (prefixed t).map fun n : ℕ => -(n : ℤ)
  | t => (prefixed t).map Int.ofNat

/-- The nested lists. -/
inductive Ast
  | int (n : ℤ)
  | sym (t : Text)
  | list (xs : List Ast)

/-- Induction over the nested lists. -/
@[elab_as_elim]
lemma Ast.induct {P : Ast → Prop} (int : ∀ n, P (.int n)) (sym : ∀ t, P (.sym t))
    (list : ∀ xs, (∀ x ∈ xs, P x) → P (.list xs)) (x : Ast) : P x :=
  Ast.rec (motive_2 := fun xs => ∀ x ∈ xs, P x) int sym list (by simp)
    (fun _ _ hx hxs => List.forall_mem_cons.mpr ⟨hx, hxs⟩) x

/-- A word of the source. -/
def leaf (u : Unicode) (t : Text) : Ast :=
  match pyInt u t with
  | some n => .int n
  | none => .sym t

/-- `ws` and `prims` -/
def ws (c : ℕ) : Bool := c = 9 || c = 10 || c = 32
def prims (c : ℕ) : Bool := c = 91 || c = 93

/-- The loop of `tok`, with the text from the index on, for at most `n` steps: the text that is
left, and the list. -/
def tok (u : Unicode) : ℕ → Text → List Ast → Text × List Ast
  | 0, s, out => (s, out)
  | _ + 1, [], out => ([], out)
  | n + 1, c :: s, out =>
    if c = 91 then
      let (s, x) := tok u n s []
      tok u n s (out ++ [.list x])
    else if c = 93 then (s, out)
    else if ws c then tok u n s out
    else
      let t := (c :: s).takeWhile fun c => !prims c && !ws c
      tok u n ((c :: s).drop t.length) (out ++ [leaf u t])

/-- `tokenize` -/
def tokenize (u : Unicode) (s : Text) : List Ast := (tok u (s.length + 1) s []).2

/-! ### The compiler -/

/-- What may be a key of a dictionary. -/
inductive Key
  | int (n : ℤ)
  | sym (t : Text)
deriving DecidableEq

def keyOf : Ast → Option Key
  | .int n => some (.int n)
  | .sym t => some (.sym t)
  | .list _ => none

/-- `env`, with the latest entries first. -/
abbrev Env := List (Key × ℤ)

/-- `labels`, in the order of the keys. -/
abbrev Labels := List (Text × Text)

/-- `labels[m] = buf` -/
def setLabel (m buf : Text) : Labels → Labels
  | [] => [(m, buf)]
  | (k, v) :: labels => if k = m then (k, buf) :: labels else (k, v) :: setLabel m buf labels

/-- `mangle` -/
def mangle : Key → Text
  | .int n => chars "_" ++ toHex n
  | .sym t => chars "_" ++ t

/-- `compile_int` -/
def compileInt (val : ℤ) : Text :=
  chars "xor r1d r1d r1d\n" ++ chars "ads r1d r1d " ++ toHex val ++ chars "\n"

/-- The value at `slot` of the frame is loaded, or `r1d` is stored there. -/
def loadSlot (slot : ℤ) : Text := chars "ldr r1d r19 " ++ toHex slot ++ chars "\n"
def storeSlot (slot : ℤ) : Text := chars "str r1d r19 " ++ toHex slot ++ chars "\n"

/-- `compile_gt`, `compile_load`, `compile_store` and `builtin_op`: the operand that comes first is
`e₁`, and `op` is what is done with the two. -/
def binaryText (idx : ℕ) (e₁ e₂ op : Text) : Text :=
  chars "ads r18 r18 2\n" ++ (chars "str r0 r19 " ++ toHex (idx + 1) ++ chars "\n") ++ e₁ ++
    storeSlot (idx + 2) ++ e₂ ++ (chars "ldr r0 r19 " ++ toHex (idx + 2) ++ chars "\n") ++ op ++
    (chars "ldr r0 r19 " ++ toHex (idx + 1) ++ chars "\n") ++ chars "sbs r18 r18 2\n"

/-- What is done with two operands, and whether the second one comes first. -/
structure Binary where
  op : Text
  swap : Bool
deriving DecidableEq

/-- `prims` and `sp_prims` of `compile_call` -/
def binaries : List (Text × Binary) :=
  [(chars "+", ⟨chars "ads r1d r0 r1d\n", false⟩), (chars "-", ⟨chars "sbs r1d r0 r1d\n", false⟩),
    (chars "&", ⟨chars "and r1d r0 r1d\n", false⟩), (chars "|", ⟨chars "orr r1d r0 r1d\n", false⟩),
    (chars "^", ⟨chars "xor r1d r0 r1d\n", false⟩), (chars "~", ⟨chars "nor r1d r0 r1d\n", false⟩),
    (chars "><", ⟨chars "shf r1d r0 r1d\n", false⟩),
    (chars "*", ⟨chars "mls r1d r0 r1d\n", false⟩),
    (chars "mul", ⟨chars "mlu r1d r0 r1d\n", false⟩),
    (chars "/", ⟨chars "dvs r1d r0 r1d\n", false⟩),
    (chars "div", ⟨chars "dvu r1d r0 r1d\n", false⟩),
    (chars ">", ⟨chars "sbs r1d r0 r1d\n" ++ chars "shf r1d r1d 3f\n", true⟩),
    (chars ".", ⟨chars "str r1d r0 0\n", false⟩), (chars ",", ⟨chars "ldr r1d r0 r1d\n", false⟩)]

/-- What an expression begins with. -/
inductive Head
  | binary (b : Binary)
  | letE
  | set
  | ifE
  | loop
  | fn
  | asm
  | call (m : Text)
deriving DecidableEq

def headOf (k : Key) : Head :=
  match k with
  | .int n => .call (mangle (.int n))
  | .sym t =>
    match binaries.lookup t with
    | some b => .binary b
    | none =>
      if t = chars "let" then .letE
      else if t = chars "set" then .set
      else if t = chars "if" then .ifE
      else if t = chars "loop" then .loop
      else if t = chars ":" then .fn
      else if t = chars "asm" then .asm
      else .call (mangle k)

/-- `count('\n')` -/
def lines (t : Text) : ℕ := t.count 10

/-- What `if` puts between its parts. -/
def ifText (e₁ e₂ e₃ : Text) : Text :=
  e₁ ++ chars "nor r1d r1d r1d\n" ++ chars "and r1d r1d 1\n" ++
    (chars "jnc r1d r1e " ++ toHex (2 + lines e₂) ++ chars "\n") ++ e₂ ++
    (chars "jnc r1f r1e " ++ toHex (1 + lines e₃) ++ chars "\n") ++ e₃

/-- What `loop` puts between its parts. -/
def loopText (e₁ e₂ : Text) : Text :=
  e₁ ++ chars "nor r1d r1d r1d\n" ++ chars "and r1d r1d 1\n" ++
    (chars "jnc r1d r1e " ++ toHex (2 + lines e₂) ++ chars "\n") ++ e₂ ++
    (chars "jnc r1f r1e -" ++ toHex (3 + lines e₂ + lines e₁) ++ chars "\n")

/-- The text of a function with the code `body`. -/
def functionText (m body : Text) : Text :=
  m ++ chars "\n" ++ chars "ads r18 r18 1\n" ++ chars "str r19 r18 0\n" ++
    chars "ads r19 r18 0\n" ++ body ++ chars "ldr r19 r18 0\n" ++ chars "sbs r18 r18 1\n" ++
    chars "jnc r1F r1B 0\n"

/-- A call of `m` after the code `args` of the arguments. -/
def callText (m offset args : Text) : Text :=
  chars "ads r18 r18 " ++ offset ++ chars "\n" ++ args ++ chars "str r1b r18 0\n" ++
    chars "ads r1b r1e 2\n" ++ (chars "jnc r1F r1a " ++ m ++ chars "\n") ++
    chars "ldr r1b r18 0 \n" ++ (chars "sbs r18 r18 " ++ offset ++ chars "\n")

/-- The names of the parameters, each character being one in a list that is a word. -/
def paramKeys : Ast → Option (List Key)
  | .int _ => none
  | .sym t => some (t.map fun c => .sym [c])
  | .list xs => xs.mapM keyOf

/-- The environment of a function. -/
def paramEnv (ks : List Key) : Env :=
  (ks.zipIdx.map fun (k, i) => (k, (i : ℤ) - ks.length - 1)).reverse

/-- An item of `asm` -/
def asmItem : Ast → Option Text
  | .int n => some (toHex n)
  | .sym t => some t
  | .list _ => none

def asmItems : Ast → Option (List Text)
  | .int _ => none
  | .sym t => some (t.map fun c => [c])
  | .list xs => xs.mapM asmItem

/-- The value of a variable is loaded. -/
def compileVar (t : Text) (env : Env) : Option Text := (env.lookup (.sym t)).map loadSlot

/-- The items of `asm`, with a space between them. -/
def asmText (items : List Text) : Text := [32].intercalate items ++ chars "\n"

/-- What goes on with the text and the labels of a part. -/
abbrev Part := Option (Text × Labels)

mutual

/-- `compile_expr` -/
def compileExpr : Ast → ℕ → Env → Labels → Part
  | .int n, _, _, ls => some (compileInt n, ls)
  | .sym t, _, env, ls => (compileVar t env).map (·, ls)
  | .list [], _, _, ls => some (chars "xor r1d r1d r1d\n", ls)
  | .list (x :: xs), idx, env, ls =>
    (keyOf x).bind fun k => compileCall (headOf k) (x :: xs) idx env ls

/-- `compile_call`, of a list that begins with what the head says -/
def compileCall : Head → List Ast → ℕ → Env → Labels → Part
  | .binary ⟨op, false⟩, [_, x, y], idx, env, ls => do
    let (e₁, ls) ← compileExpr x (idx + 1) env ls
    let (e₂, ls) ← compileExpr y (idx + 2) env ls
    some (binaryText idx e₁ e₂ op, ls)
  | .binary ⟨op, true⟩, [_, x, y], idx, env, ls => do
    let (e₁, ls) ← compileExpr y (idx + 1) env ls
    let (e₂, ls) ← compileExpr x (idx + 2) env ls
    some (binaryText idx e₁ e₂ op, ls)
  | .binary _, _, _, _, ls => some ([], ls)
  | .letE, _ :: ps :: y :: ys, idx, env, ls => do
    let (n, pairs, env, ls) ← compileLet ps idx env ls
    let (body, ls) ← compileSeq (y :: ys) (idx + n) env ls
    some (chars "ads r18 r18 " ++ str n ++ chars "\n" ++ pairs ++ body ++
      (chars "sbs r18 r18 " ++ str n ++ chars "\n"), ls)
  | .letE, _, _, _, ls => some ([], ls)
  | .set, _ :: x :: y :: _, idx, env, ls => do
    let k ← keyOf x
    match env.lookup k with
    | none => some ([], ls)
    | some slot =>
      let (e, ls) ← compileExpr y idx env ls
      some (e ++ storeSlot slot, ls)
  | .set, [_, x], _, env, ls => do
    let k ← keyOf x
    if env.lookup k = none then some ([], ls) else none
  | .ifE, _ :: x :: y :: z :: _, idx, env, ls => do
    let (e₂, ls) ← compileExpr y idx env ls
    let (e₃, ls) ← compileExpr z idx env ls
    let (e₁, ls) ← compileExpr x idx env ls
    some (ifText e₁ e₂ e₃, ls)
  | .loop, _ :: x :: ys, idx, env, ls => do
    let (e₂, ls) ← compileSeq ys idx env ls
    let (e₁, ls) ← compileExpr x idx env ls
    some (loopText e₁ e₂, ls)
  | .fn, _ :: name :: ps :: ys, _, _, ls => do
    let ks ← paramKeys ps
    let k ← keyOf name
    let (body, ls) ← compileSeq ys 0 (paramEnv ks) (setLabel (mangle k) [] ls)
    some (chars "ads r1d r1a " ++ mangle k ++ chars "\n",
      setLabel (mangle k) (functionText (mangle k) body) ls)
  | .asm, _ :: x :: _, _, _, ls => (asmItems x).map fun items => (asmText items, ls)
  | .call m, _ :: xs, idx, env, ls => do
    let (args, ls) ← compileArgs xs (idx + 1) env ls
    some (callText m (hex (idx + 1 + xs.length)) args, ls)
  | _, _, _, _, _ => none

/-- Expressions one after the other -/
def compileSeq : List Ast → ℕ → Env → Labels → Part
  | [], _, _, ls => some ([], ls)
  | x :: xs, idx, env, ls => do
    let (e, ls) ← compileExpr x idx env ls
    let (es, ls) ← compileSeq xs idx env ls
    some (e ++ es, ls)

/-- The arguments of a call, which are stored from the slot `idx` on -/
def compileArgs : List Ast → ℕ → Env → Labels → Part
  | [], _, _, ls => some ([], ls)
  | x :: xs, idx, env, ls => do
    let (e, ls) ← compileExpr x idx env ls
    let (es, ls) ← compileArgs xs (idx + 1) env ls
    some (e ++ storeSlot idx ++ es, ls)

/-- The bindings of `let`: how many there are, their text, and the environment after them -/
def compileLet : Ast → ℕ → Env → Labels → Option (ℕ × Text × Env × Labels)
  | .int _, _, _, _ => none
  | .sym [], _, env, ls => some (0, [], env, ls)
  | .sym (_ :: _), _, _, _ => none
  | .list ps, idx, env, ls => do
    let (pairs, env, ls) ← compilePairs ps (idx + 1) env ls
    some (ps.length, pairs, env, ls)

/-- The bindings of `let`, the first one at the slot `idx` -/
def compilePairs : List Ast → ℕ → Env → Labels → Option (Text × Env × Labels)
  | [], _, env, ls => some ([], env, ls)
  | p :: ps, idx, env, ls => do
    let (e, env, ls) ← compilePair p idx env ls
    let (es, env, ls) ← compilePairs ps (idx + 1) env ls
    some (e ++ es, env, ls)

/-- A binding of `let`: the name is known in its own value -/
def compilePair : Ast → ℕ → Env → Labels → Option (Text × Env × Labels)
  | .list (x :: y :: _), idx, env, ls => do
    let k ← keyOf x
    let (e, ls) ← compileExpr y idx ((k, (idx : ℤ)) :: env) ls
    some (e ++ storeSlot idx, (k, (idx : ℤ)) :: env, ls)
  | .sym (c :: d :: _), idx, env, ls => do
    let e ← compileVar [d] ((.sym [c], (idx : ℤ)) :: env)
    some (e ++ storeSlot idx, (.sym [c], (idx : ℤ)) :: env, ls)
  | _, _, _, _ => none

end

/-- `comp`, of the nested lists -/
def compAst (toks : List Ast) : Option Text := do
  let (main, labels) ← compileSeq toks 0 [] []
  let functions := labels.flatMap fun (_, buf) => chars "\n" ++ buf ++ chars "\n"
  some (chars "ads r1A r1E 0\n" ++ chars "ads r18 r1A STACK:\n" ++ chars "ads r19 r18 0\n" ++
    chars "ads r1b r1E 2\n" ++ chars "jnc r1f r1a MAIN:\n" ++ chars "xor r1F r1F r1F\n" ++
    functions ++ chars "MAIN:\n" ++ main ++ chars "jnc r1f r1b 0\n\n" ++ chars "STACK: 0")

/-- `comp` -/
def comp (u : Unicode) (s : Text) : Option Text := compAst (tokenize u s)

end LispMachine.CompilePy
