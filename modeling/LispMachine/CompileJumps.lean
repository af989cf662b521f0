import LispMachine.CompileText

/-!
The jumps of `if` and `loop` in the code of the compiler.

The displacements count the lines of the text between a jump and its target. A line is one word,
but for an `asm` block, which is one line with any number of words.
-/

namespace LispMachine.CompileJumps

open LispMachine.Memory LispMachine.Asm LispMachine.AsmRef LispMachine.AsmScan LispMachine.Machine
open LispMachine.AsmStep LispMachine.AsmParts LispMachine.CompilePy LispMachine.CompileText

/-! ### Sources with whole blocks -/

/-- The items of a block are whole statements, without an operand that is `r` and no more. -/
def WholeBlock (items : List Text) : Prop :=
  (reading (asmText items)).ending = .done ∧ ∀ st ∈ (reading (asmText items)).stmts, ¬ Bare st

mutual

/-- No word has a separator of the assembler in it, and each `asm` block is whole. -/
def Sound : Ast → Prop
  | .int _ => True
  | .sym t => Solid t
  | .list xs => SoundList xs ∧ ∀ x ys items, xs = .sym (chars "asm") :: x :: ys →
      asmItems x = some items → WholeBlock items

def SoundList : List Ast → Prop
  | [] => True
  | x :: xs => Sound x ∧ SoundList xs

end

/-- The words of a block beyond one. -/
def surplus (items : List Text) : ℤ := (wordsOf (reading (asmText items)).stmts).length - 1

mutual

/-- The words of the `asm` blocks in the code of an expression, beyond one for each block. The names
`Γ` are bound. -/
def excess : Ast → List Key → ℤ
  | .list (x :: xs), Γ =>
    match keyOf x with
    | some k => excessCall (headOf k) (x :: xs) Γ
    | none => 0
  | _, _ => 0

def excessCall : Head → List Ast → List Key → ℤ
  | .binary _, [_, x, y], Γ => excess x Γ + excess y Γ
  | .letE, _ :: ps :: y :: ys, Γ =>
    (excessLet ps Γ).1 + excessSeq (y :: ys) (excessLet ps Γ).2
  | .set, _ :: x :: y :: _, Γ => if keyOf x ∈ Γ.map some then excess y Γ else 0
  | .ifE, _ :: x :: y :: z :: _, Γ => excess x Γ + excess y Γ + excess z Γ
  | .loop, _ :: x :: ys, Γ => excess x Γ + excessSeq ys Γ
  | .asm, _ :: x :: _, _ => ((asmItems x).map surplus).getD 0
  | .call _, _ :: xs, Γ => excessSeq xs Γ
  | _, _, _ => 0

def excessSeq : List Ast → List Key → ℤ
  | [], _ => 0
  | x :: xs, Γ => excess x Γ + excessSeq xs Γ

/-- The same for the bindings of `let`, with the names after them. -/
def excessLet : Ast → List Key → ℤ × List Key
  | .list ps, Γ => excessPairs ps Γ
  | _, Γ => (0, Γ)

def excessPairs : List Ast → List Key → ℤ × List Key
  | [], Γ => (0, Γ)
  | p :: ps, Γ =>
    ((excessPair p Γ).1 + (excessPairs ps (excessPair p Γ).2).1,
      (excessPairs ps (excessPair p Γ).2).2)

def excessPair : Ast → List Key → ℤ × List Key
  | .list (x :: y :: _), Γ =>
    match keyOf x with
    | some k => (excess y (k :: Γ), k :: Γ)
    | none => (0, Γ)
  | .sym (c :: _ :: _), Γ => (0, .sym [c] :: Γ)
  | _, Γ => (0, Γ)

end

/-! ### Lines and words -/

variable {s t : Text} {d d' : ℤ} {ss : List Stmt} {items : List Text}

/-- The text has `d` words more than lines. -/
def Counts (d : ℤ) (t : Text) : Prop :=
  ∃ ss, Code t ss ∧ (∀ st ∈ ss, ¬ Bare st) ∧ ((wordsOf ss).length : ℤ) = lines t + d

lemma lines_append (s t : Text) : lines (s ++ t) = lines s + lines t := List.count_append

lemma Counts.append (hs : Counts d s) (ht : Counts d' t) : Counts (d + d') (s ++ t) := by
  obtain ⟨ss, h1, h2, h3⟩ := hs
  obtain ⟨ss', h1', h2', h3'⟩ := ht
  refine ⟨ss ++ ss', h1.append h1', ?_, ?_⟩
  · intro st hst
    rcases List.mem_append.mp hst with h | h
    · exact h2 st h
    · exact h2' st h
  · rw [wordsOf_append, List.length_append, lines_append]
    push_cast
    omega

lemma Counts.nil : Counts 0 [] := ⟨[], Code.nil, by simp, rfl⟩

lemma counts_fixed (hc : Closed t) (hd : (reading t).ending = .done)
    (hb : ∀ st ∈ (reading t).stmts, ¬ Bare st)
    (hw : (wordsOf (reading t).stmts).length = lines t) : Counts 0 t :=
  ⟨_, ⟨hc, hd, rfl⟩, hb, by rw [hw, add_zero]⟩

/-- A token that may be the last operand of a line -/
structure Label (tok : Text) : Prop where
  solid : Solid tok
  nonempty : tok ≠ []
  notBare : tok ≠ regDes

lemma lines_solid (h : Solid t) : lines t = 0 :=
  List.count_eq_zero.mpr fun hmem => absurd (h 10 hmem) (by decide)

/-- **A line** of the compiler is one word. -/
lemma counts_line {tok : Text} {o a q : ℕ} (h : instrHead t = some (o, a, q)) (hc : Closed t)
    (hl : lines t = 0) (ht : Label tok) : Counts 0 (t ++ tok ++ chars "\n") := by
  refine ⟨_, code_line h hc ht.solid ht.nonempty, ?_, ?_⟩
  · rw [List.forall_mem_singleton]
    cases hlast : lastOperand 3 tok with
    | imm v => exact id
    | reg r => exact id
    | label u =>
      rw [AsmCorrect.lastOperand_label hlast]
      exact ht.notBare
  · rw [lines_append, lines_append, hl, lines_solid ht.solid]
    rfl

lemma label_toHex (v : ℤ) : Label (toHex v) := ⟨solid_toHex v, toHex_ne_nil v, toHex_ne_regDes v⟩

lemma label_hex (n : ℕ) : Label (hex n) := toHex_natCast n ▸ label_toHex n

lemma mem_str {c n : ℕ} (h : c ∈ str n) : ∃ d < 10, c = d.digitChar.toNat := by
  obtain ⟨c', hc', rfl⟩ := List.mem_map.mp h
  induction n using Nat.strong_induction_on with
  | _ n ih =>
    by_cases hn : n < 10
    · rw [Nat.toDigits_of_lt_base hn, List.mem_singleton] at hc'
      exact ⟨n, hn, by rw [hc']⟩
    · rw [Nat.toDigits_of_base_le (by decide) (by omega), List.mem_append,
        List.mem_singleton] at hc'
      rcases hc' with hc' | hc'
      · exact ih (n / 10) (by omega) hc' (List.mem_map.mpr ⟨_, hc', rfl⟩)
      · exact ⟨n % 10, by omega, by rw [hc']⟩

lemma label_str (n : ℕ) : Label (str n) := by
  have hmem {c : ℕ} (h : c ∈ str n) : whitespace c = false ∧ c ≠ 114 := by
    obtain ⟨d, hd, rfl⟩ := mem_str h
    have := hexDigit_digitChar d (by omega)
    exact ⟨this.2.1, this.2.2.1⟩
  refine ⟨fun c hc => (hmem hc).1, mt List.map_eq_nil_iff.mp Nat.toDigits_ne_nil, fun h => ?_⟩
  exact (hmem (c := 114) (by rw [h]; decide)).2 rfl

lemma label_mangle {x : Ast} {k : Key} (hx : Sound x) (hk : keyOf x = some k) :
    Label (mangle k) := by
  have hcons (m : Text) (hm : Solid m) : Label (chars "_" ++ m) := by
    refine ⟨?_, List.cons_ne_nil _ _, fun h => absurd (List.cons.inj h).1 (by decide)⟩
    exact List.forall_mem_cons.mpr ⟨by decide, hm⟩
  cases x with
  | int n =>
    cases hk
    exact hcons _ (solid_toHex n)
  | sym t =>
    cases hk
    exact hcons _ hx
  | list xs => cases hk

/-! ### The texts of the compiler -/

variable {e₁ e₂ e₃ op m : Text} {d₁ d₂ d₃ : ℤ}

lemma counts_numLine (v : ℤ) {o a q : ℕ} (h : instrHead t = some (o, a, q)) (hc : Closed t)
    (hl : lines t = 0) : Counts 0 (t ++ toHex v ++ chars "\n") :=
  counts_line h hc hl (label_toHex v)

lemma counts_loadSlot (v : ℤ) : Counts 0 (loadSlot v) :=
  counts_numLine (t := chars "ldr r1d r19 ") (o := 12) (a := rr) (q := fp) v (by decide) (by decide)
    (by decide)

lemma counts_storeSlot (v : ℤ) : Counts 0 (storeSlot v) :=
  counts_numLine (t := chars "str r1d r19 ") (o := 13) (a := rr) (q := fp) v (by decide) (by decide)
    (by decide)

lemma Counts.store (h : Counts d t) (v : ℤ) : Counts d (t ++ storeSlot v) := by
  have h1 := h.append (counts_storeSlot v)
  rwa [add_zero] at h1

lemma counts_compileInt (v : ℤ) : Counts 0 (compileInt v) := by
  have h1 : Counts 0 (chars "xor r1d r1d r1d\n") :=
    counts_fixed (by decide) (by decide) (by decide) (by decide)
  have h2 := counts_numLine (t := chars "ads r1d r1d ") (o := 1) (a := rr) (q := rr) v (by decide)
    (by decide) (by decide)
  rw [compileInt, List.append_assoc, List.append_assoc, ← List.append_assoc (chars "ads r1d r1d ")]
  exact h1.append h2

lemma counts_binaryText (idx : ℕ) (h₁ : Counts d₁ e₁) (h₂ : Counts d₂ e₂) (ho : Counts 0 op) :
    Counts (d₁ + d₂) (binaryText idx e₁ e₂ op) := by
  have hads : Counts 0 (chars "ads r18 r18 2\n") :=
    counts_fixed (by decide) (by decide) (by decide) (by decide)
  have hsbs : Counts 0 (chars "sbs r18 r18 2\n") :=
    counts_fixed (by decide) (by decide) (by decide) (by decide)
  have hstr (v : ℤ) := counts_numLine (t := chars "str r0 r19 ") (o := 13) (a := 0) (q := fp) v
    (by decide) (by decide) (by decide)
  have hldr (v : ℤ) := counts_numLine (t := chars "ldr r0 r19 ") (o := 12) (a := 0) (q := fp) v
    (by decide) (by decide) (by decide)
  have h := (((((((hads.append (hstr (idx + 1))).append h₁).append
    (counts_storeSlot (idx + 2))).append h₂).append (hldr (idx + 2))).append ho).append
      (hldr (idx + 1))).append hsbs
  rw [show d₁ + d₂ = 0 + 0 + d₁ + 0 + d₂ + 0 + 0 + 0 + 0 by ring]
  exact h

/-- The jumps of `if` and `loop`: the one after the test, and the unconditional one -/
def jump (v : ℤ) : Text := chars "jnc r1d r1e " ++ toHex v ++ chars "\n"
def jumpAlways (v : ℤ) : Text := chars "jnc r1f r1e " ++ toHex v ++ chars "\n"

/-- The lines before the first jump -/
def test : Text := chars "nor r1d r1d r1d\n" ++ chars "and r1d r1d 1\n"

lemma counts_test : Counts 0 test :=
  counts_fixed (by decide) (by decide) (by decide) (by decide)

lemma counts_jump (v : ℤ) : Counts 0 (jump v) :=
  counts_numLine (o := 14) (a := rr) (q := pc) v (by decide) (by decide) (by decide)

lemma counts_jumpAlways (v : ℤ) : Counts 0 (jumpAlways v) :=
  counts_numLine (o := 14) (a := sr) (q := pc) v (by decide) (by decide) (by decide)

lemma counts_ifText (h₁ : Counts d₁ e₁) (h₂ : Counts d₂ e₂) (h₃ : Counts d₃ e₃) :
    Counts (d₁ + d₂ + d₃) (ifText e₁ e₂ e₃) := by
  have h := ((((h₁.append counts_test).append (counts_jump (2 + lines e₂))).append h₂).append
    (counts_jumpAlways (1 + lines e₃))).append h₃
  rw [show d₁ + d₂ + d₃ = d₁ + 0 + 0 + d₂ + 0 + d₃ by ring]
  simpa [ifText, test, jump, jumpAlways] using h

lemma toHex_neg {n : ℕ} (h : 0 < n) : toHex (-n) = chars "-" ++ hex n := by
  rw [toHex, if_pos (by omega), Int.natAbs_neg, Int.natAbs_natCast]

/-- The displacement back is a negative number. -/
lemma loopText_eq (e₁ e₂ : Text) : loopText e₁ e₂ = e₁ ++ test ++ jump (2 + lines e₂) ++ e₂ ++
    jumpAlways (-(3 + lines e₂ + lines e₁ : ℕ)) := by
  have hback : toHex (3 + lines e₂ + lines e₁) = hex (3 + lines e₂ + lines e₁) :=
    (congrArg toHex (by push_cast; rfl)).trans (toHex_natCast _)
  have hneg : chars "jnc r1f r1e -" = chars "jnc r1f r1e " ++ chars "-" := by decide
  rw [jumpAlways, toHex_neg (by omega), ← hback]
  simp [loopText, test, jump, hneg]

lemma counts_loopText (h₁ : Counts d₁ e₁) (h₂ : Counts d₂ e₂) :
    Counts (d₁ + d₂) (loopText e₁ e₂) := by
  have h := (((h₁.append counts_test).append (counts_jump (2 + lines e₂))).append h₂).append
    (counts_jumpAlways (-(3 + lines e₂ + lines e₁ : ℕ)))
  rw [loopText_eq, show d₁ + d₂ = d₁ + 0 + 0 + d₂ + 0 by ring]
  exact h

lemma counts_callText {offset args : Text} (hm : Label m) (ho : Label offset)
    (ha : Counts d args) : Counts d (callText m offset args) := by
  have h1 := counts_line (t := chars "ads r18 r18 ") (o := 1) (a := sp) (q := sp) (by decide)
    (by decide) (by decide) ho
  have h2 : Counts 0 (chars "str r1b r18 0\n" ++ chars "ads r1b r1e 2\n") :=
    counts_fixed (by decide) (by decide) (by decide) (by decide)
  have h3 := counts_line (t := chars "jnc r1F r1a ") (o := 14) (a := sr) (q := bp) (by decide)
    (by decide) (by decide) hm
  have h4 : Counts 0 (chars "ldr r1b r18 0 \n") :=
    counts_fixed (by decide) (by decide) (by decide) (by decide)
  have h5 := counts_line (t := chars "sbs r18 r18 ") (o := 2) (a := sp) (q := sp) (by decide)
    (by decide) (by decide) ho
  have h := ((((h1.append ha).append h2).append h3).append h4).append h5
  rw [show d = 0 + d + 0 + 0 + 0 + 0 by ring]
  simpa [callText] using h

lemma counts_ops : ∀ p ∈ binaries, Counts 0 p.2.op := by
  have h : ∀ p ∈ binaries, Closed p.2.op ∧ (reading p.2.op).ending = .done ∧
      (∀ st ∈ (reading p.2.op).stmts, ¬ Bare st) ∧
      (wordsOf (reading p.2.op).stmts).length = lines p.2.op := by
    decide
  exact fun p hp => counts_fixed (h p hp).1 (h p hp).2.1 (h p hp).2.2.1 (h p hp).2.2.2

lemma mem_intercalate {c : ℕ} (h : c ∈ [32].intercalate items) : c = 32 ∨ ∃ t ∈ items, c ∈ t := by
  induction items with
  | nil => cases h
  | cons t ts ih =>
    cases ts with
    | nil => exact .inr ⟨t, by simp, by simpa [List.intercalate] using h⟩
    | cons r rs =>
      have heq : [32].intercalate (t :: r :: rs) = t ++ 32 :: [32].intercalate (r :: rs) := by
        simp [List.intercalate]
      rw [heq, List.mem_append, List.mem_cons] at h
      rcases h with h | h | h
      · exact .inr ⟨t, by simp, h⟩
      · exact .inl h
      · rcases ih h with h | ⟨u, hu, h⟩
        · exact .inl h
        · exact .inr ⟨u, List.mem_cons_of_mem t hu, h⟩

/-- An `asm` block is one line. -/
lemma counts_asmText (hi : ∀ t ∈ items, Solid t) (hw : WholeBlock items) :
    Counts (surplus items) (asmText items) := by
  have hmem : ∀ c ∈ [32].intercalate items, c ≠ 10 := by
    rintro c hc rfl
    rcases mem_intercalate hc with h | ⟨t, ht, h⟩
    · cases h
    · exact absurd (hi t ht 10 h) (by decide)
  have hlines : lines (asmText items) = 1 := by
    rw [asmText, lines_append, lines, List.count_eq_zero.mpr fun h => hmem 10 h rfl]
    rfl
  have hclosed : Closed (asmText items) := AsmResolve.closed_concat _ (by decide)
  refine ⟨_, ⟨hclosed, hw.1, rfl⟩, hw.2, ?_⟩
  rw [hlines, surplus]
  omega

lemma solid_items {x : Ast} (hx : Sound x) (h : asmItems x = some items) :
    ∀ t ∈ items, Solid t := by
  cases x with
  | int n => cases h
  | sym s =>
    cases h
    intro t ht
    obtain ⟨c, hc, rfl⟩ := List.mem_map.mp ht
    exact List.forall_mem_singleton.mpr (hx c hc)
  | list xs =>
    have hxs : SoundList xs := hx.1
    rw [asmItems] at h
    clear hx
    induction xs generalizing items with
    | nil => cases h; simp
    | cons y ys ih =>
      rw [List.mapM_cons] at h
      obtain ⟨t, ht, h⟩ := Option.bind_eq_some_iff.mp h
      obtain ⟨ts, hts, h⟩ := Option.bind_eq_some_iff.mp h
      cases h
      refine List.forall_mem_cons.mpr ⟨?_, ih hts hxs.2⟩
      cases y with
      | int n => cases ht; exact solid_toHex n
      | sym s => cases ht; exact hxs.1
      | list zs => cases ht

/-! ### The code of an expression -/

/-- The head is that of a list of sound expressions. -/
structure GoodHead (hd : Head) (xs : List Ast) : Prop where
  op : ∀ b, hd = .binary b → Counts 0 b.op
  name : ∀ m, hd = .call m → Label m
  block : hd = .asm → ∀ x y ys items, xs = x :: y :: ys → asmItems y = some items →
    WholeBlock items

lemma headOf_cases (k : Key) : (∃ p ∈ binaries, headOf k = .binary p.2) ∨
    headOf k ∈ [.letE, .set, .ifE, .loop, .fn] ∨
    (headOf k = .asm ∧ k = .sym (chars "asm")) ∨ headOf k = .call (mangle k) := by
  cases k with
  | int n => exact .inr (.inr (.inr rfl))
  | sym t =>
    rw [headOf]
    split
    · next b hb =>
      obtain ⟨l₁, l₂, h, -⟩ := List.lookup_eq_some_iff.mp hb
      exact .inl ⟨(t, b), by rw [h]; simp, rfl⟩
    · split_ifs with h1 h2 h3 h4 h5 h6
      · simp
      · simp
      · simp
      · simp
      · simp
      · exact .inr (.inr (.inl ⟨rfl, by rw [h6]⟩))
      · exact .inr (.inr (.inr rfl))

lemma Sound.goodHead {x : Ast} {k : Key} {xs : List Ast} (h : Sound (.list (x :: xs)))
    (hk : keyOf x = some k) : GoodHead (headOf k) (x :: xs) := by
  rcases headOf_cases k with ⟨p, hp, heq⟩ | heq | ⟨heq, rfl⟩ | heq
  · rw [heq]
    refine ⟨fun b hb => ?_, fun m hm => (nomatch hm), fun ha => (nomatch ha)⟩
    cases hb
    exact counts_ops p hp
  · simp only [List.mem_cons, List.not_mem_nil, or_false] at heq
    rcases heq with heq | heq | heq | heq | heq <;> rw [heq] <;>
      exact ⟨fun b hb => (nomatch hb), fun m hm => (nomatch hm), fun ha => (nomatch ha)⟩
  · rw [heq]
    refine ⟨fun b hb => (nomatch hb), fun m hm => (nomatch hm), fun _ x' y ys items hxs hy => ?_⟩
    cases hxs
    refine h.2 y ys items ?_ hy
    cases x with
    | int n => cases hk
    | sym t => cases hk; rfl
    | list zs => cases hk
  · rw [heq]
    refine ⟨fun b hb => (nomatch hb), fun m hm => ?_, fun ha => (nomatch ha)⟩
    cases hm
    exact label_mangle h.1.1 hk

/-- The code of an expression, of the bindings of `let` and of one binding has as many words as
lines, but for its `asm` blocks. -/
structure Good (x : Ast) : Prop where
  expr : ∀ {idx env ls t ls'}, compileExpr x idx env ls = some (t, ls') →
    Counts (excess x (env.map Prod.fst)) t
  binds : ∀ {idx env ls n t env' ls'}, compileLet x idx env ls = some (n, t, env', ls') →
    Counts (excessLet x (env.map Prod.fst)).1 t ∧
      env'.map Prod.fst = (excessLet x (env.map Prod.fst)).2
  bind : ∀ {idx env ls t env' ls'}, compilePair x idx env ls = some (t, env', ls') →
    Counts (excessPair x (env.map Prod.fst)).1 t ∧
      env'.map Prod.fst = (excessPair x (env.map Prod.fst)).2

variable {xs : List Ast} {idx : ℕ} {env env' : Env} {ls ls' : Labels}

lemma seq_counts (hx : ∀ x ∈ xs, Good x) (h : compileSeq xs idx env ls = some (t, ls')) :
    Counts (excessSeq xs (env.map Prod.fst)) t := by
  induction xs generalizing t ls with
  | nil =>
    cases h
    exact Counts.nil
  | cons x xs ih =>
    rw [compileSeq] at h
    obtain ⟨⟨e, l⟩, h1, h⟩ := Option.bind_eq_some_iff.mp h
    obtain ⟨⟨es, l'⟩, h2, h⟩ := Option.bind_eq_some_iff.mp h
    cases h
    exact ((hx x (by simp)).expr h1).append (ih (fun x h => hx x (by simp [h])) h2)

lemma args_counts (hx : ∀ x ∈ xs, Good x) (h : compileArgs xs idx env ls = some (t, ls')) :
    Counts (excessSeq xs (env.map Prod.fst)) t := by
  induction xs generalizing t ls idx with
  | nil =>
    cases h
    exact Counts.nil
  | cons x xs ih =>
    rw [CompilePy.compileArgs] at h
    obtain ⟨⟨e, l⟩, h1, h⟩ := Option.bind_eq_some_iff.mp h
    obtain ⟨⟨es, l'⟩, h2, h⟩ := Option.bind_eq_some_iff.mp h
    cases h
    exact (((hx x (by simp)).expr h1).store idx).append (ih (fun x h => hx x (by simp [h])) h2)

lemma pairs_counts (hx : ∀ x ∈ xs, Good x)
    (h : compilePairs xs idx env ls = some (t, env', ls')) :
    Counts (excessPairs xs (env.map Prod.fst)).1 t ∧
      env'.map Prod.fst = (excessPairs xs (env.map Prod.fst)).2 := by
  induction xs generalizing t ls idx env with
  | nil =>
    cases h
    exact ⟨Counts.nil, rfl⟩
  | cons x xs ih =>
    rw [compilePairs] at h
    obtain ⟨⟨e, env₁, l⟩, h1, h⟩ := Option.bind_eq_some_iff.mp h
    obtain ⟨⟨es, env₂, l'⟩, h2, h⟩ := Option.bind_eq_some_iff.mp h
    cases h
    obtain ⟨h3, h4⟩ := (hx x (by simp)).bind h1
    obtain ⟨h5, h6⟩ := ih (fun x h => hx x (by simp [h])) h2
    rw [h4] at h5 h6
    exact ⟨h3.append h5, h6⟩

lemma mem_keys {k : Key} : some k ∈ (env.map Prod.fst).map some ↔ env.lookup k ≠ none := by
  simp [List.lookup_eq_none_iff]

lemma call_counts {hd : Head} (hh : GoodHead hd xs) (hs : SoundList xs) (hx : ∀ x ∈ xs, Good x)
    (h : compileCall hd xs idx env ls = some (t, ls')) :
    Counts (excessCall hd xs (env.map Prod.fst)) t := by
  cases hd with
  | call m =>
    cases xs with
    | nil => cases h
    | cons x xs =>
      rw [compileCall] at h
      obtain ⟨⟨args, l⟩, h1, h⟩ := Option.bind_eq_some_iff.mp h
      cases h
      exact counts_callText (hh.name m rfl) (label_hex _)
        (args_counts (fun x h => hx x (by simp [h])) h1)
  | binary b =>
    have hop := hh.op b rfl
    obtain ⟨op, _ | _⟩ := b <;> rcases xs with _ | ⟨z, _ | ⟨x, _ | ⟨y, _ | ⟨w, xs⟩⟩⟩⟩
    case false.cons.cons.cons.nil =>
      rw [compileCall] at h
      obtain ⟨⟨e₁, l₁⟩, h1, h⟩ := Option.bind_eq_some_iff.mp h
      obtain ⟨⟨e₂, l₂⟩, h2, h⟩ := Option.bind_eq_some_iff.mp h
      cases h
      exact counts_binaryText idx ((hx x (by simp)).expr h1) ((hx y (by simp)).expr h2) hop
    case true.cons.cons.cons.nil =>
      rw [compileCall] at h
      obtain ⟨⟨e₁, l₁⟩, h1, h⟩ := Option.bind_eq_some_iff.mp h
      obtain ⟨⟨e₂, l₂⟩, h2, h⟩ := Option.bind_eq_some_iff.mp h
      cases h
      rw [excessCall, add_comm]
      exact counts_binaryText idx ((hx y (by simp)).expr h1) ((hx x (by simp)).expr h2) hop
    -- another number of operands has no code
    all_goals
      cases h
      exact Counts.nil
  | letE =>
    rcases xs with _ | ⟨z, _ | ⟨ps, _ | ⟨y, ys⟩⟩⟩
    case cons.cons.cons =>
      rw [compileCall] at h
      obtain ⟨⟨n, pairs, env₁, l₁⟩, h1, h⟩ := Option.bind_eq_some_iff.mp h
      obtain ⟨⟨body, l₂⟩, h2, h⟩ := Option.bind_eq_some_iff.mp h
      cases h
      obtain ⟨h3, h4⟩ := (hx ps (by simp)).binds h1
      have h5 := seq_counts (fun x h => hx x (by simp [List.mem_cons.mp h])) h2
      rw [h4] at h5
      have h6 := counts_line (t := chars "ads r18 r18 ") (o := 1) (a := sp) (q := sp) (by decide)
        (by decide) (by decide) (label_str n)
      have h7 := counts_line (t := chars "sbs r18 r18 ") (o := 2) (a := sp) (q := sp) (by decide)
        (by decide) (by decide) (label_str n)
      have h8 := ((h6.append h3).append h5).append h7
      rw [zero_add, add_zero] at h8
      exact h8
    all_goals
      cases h
      exact Counts.nil
  | set =>
    rcases xs with _ | ⟨z, _ | ⟨x, _ | ⟨y, ys⟩⟩⟩
    case cons.cons.cons =>
      rw [compileCall] at h
      obtain ⟨k, hk, h⟩ := Option.bind_eq_some_iff.mp h
      rw [excessCall, hk]
      cases hl : env.lookup k with
      | none =>
        rw [hl] at h
        cases h
        rw [if_neg (mt (mem_keys.mp ·) (by simp [hl]))]
        exact Counts.nil
      | some slot =>
        rw [hl] at h
        obtain ⟨⟨e, l⟩, h1, h⟩ := Option.bind_eq_some_iff.mp h
        cases h
        rw [if_pos (mem_keys.mpr (by simp [hl]))]
        exact ((hx y (by simp)).expr h1).store slot
    case cons.cons.nil =>
      rw [compileCall] at h
      obtain ⟨k, -, h⟩ := Option.bind_eq_some_iff.mp h
      split_ifs at h
      cases h
      exact Counts.nil
    all_goals cases h
  | ifE =>
    rcases xs with _ | ⟨w, _ | ⟨x, _ | ⟨y, _ | ⟨z, zs⟩⟩⟩⟩
    case cons.cons.cons.cons =>
      rw [compileCall] at h
      obtain ⟨⟨e₂, l₂⟩, h2, h⟩ := Option.bind_eq_some_iff.mp h
      obtain ⟨⟨e₃, l₃⟩, h3, h⟩ := Option.bind_eq_some_iff.mp h
      obtain ⟨⟨e₁, l₁⟩, h1, h⟩ := Option.bind_eq_some_iff.mp h
      cases h
      exact counts_ifText ((hx x (by simp)).expr h1) ((hx y (by simp)).expr h2)
        ((hx z (by simp)).expr h3)
    all_goals cases h
  | loop =>
    rcases xs with _ | ⟨w, _ | ⟨x, ys⟩⟩
    case cons.cons =>
      rw [compileCall] at h
      obtain ⟨⟨e₂, l₂⟩, h2, h⟩ := Option.bind_eq_some_iff.mp h
      obtain ⟨⟨e₁, l₁⟩, h1, h⟩ := Option.bind_eq_some_iff.mp h
      cases h
      exact counts_loopText ((hx x (by simp)).expr h1)
        (seq_counts (fun x h => hx x (by simp [h])) h2)
    all_goals cases h
  | fn =>
    rcases xs with _ | ⟨w, _ | ⟨name, _ | ⟨ps, ys⟩⟩⟩
    case cons.cons.cons =>
      rw [compileCall] at h
      obtain ⟨ks, -, h⟩ := Option.bind_eq_some_iff.mp h
      obtain ⟨k, hk, h⟩ := Option.bind_eq_some_iff.mp h
      obtain ⟨⟨body, l⟩, -, h⟩ := Option.bind_eq_some_iff.mp h
      cases h
      exact counts_line (t := chars "ads r1d r1a ") (o := 1) (a := rr) (q := bp) (by decide)
        (by decide) (by decide) (label_mangle hs.2.1 hk)
    all_goals cases h
  | asm =>
    rcases xs with _ | ⟨w, _ | ⟨x, ys⟩⟩
    case cons.cons =>
      rw [compileCall] at h
      obtain ⟨items, hi, h⟩ := Option.map_eq_some_iff.mp h
      cases h
      rw [excessCall, hi]
      exact counts_asmText (solid_items hs.2.1 hi) (hh.block rfl _ _ _ _ rfl hi)
    all_goals cases h

lemma soundList_iff : SoundList xs ↔ ∀ x ∈ xs, Sound x := by
  induction xs with
  | nil => simp [SoundList]
  | cons x xs ih => rw [SoundList, ih, List.forall_mem_cons]

/-- **Words and lines.** The code of an expression has as many words as lines, but for its `asm`
blocks. -/
lemma good (x : Ast) : Sound x → Good x := by
  induction x using Ast.induct with
  | int n =>
    refine fun _ => ⟨fun h => ?_, fun h => (nomatch h), fun h => (nomatch h)⟩
    cases h
    exact counts_compileInt n
  | sym s =>
    refine fun _ => ⟨fun h => ?_, fun h => ?_, fun h => ?_⟩
    · rw [compileExpr] at h
      obtain ⟨e, he, h⟩ := Option.map_eq_some_iff.mp h
      obtain ⟨slot, -, rfl⟩ := Option.map_eq_some_iff.mp he
      cases h
      exact counts_loadSlot slot
    · cases s with
      | nil =>
        cases h
        exact ⟨Counts.nil, rfl⟩
      | cons c s => cases h
    · rcases s with _ | ⟨c, _ | ⟨d, s⟩⟩
      · cases h
      · cases h
      · rw [compilePair] at h
        obtain ⟨e, he, h⟩ := Option.bind_eq_some_iff.mp h
        obtain ⟨slot, -, rfl⟩ := Option.map_eq_some_iff.mp he
        cases h
        exact ⟨(counts_loadSlot slot).append (counts_storeSlot _), rfl⟩
  | list xs ih =>
    intro hs
    have hgood : ∀ x ∈ xs, Good x := fun x hx => ih x hx (soundList_iff.mp hs.1 x hx)
    refine ⟨fun h => ?_, fun h => ?_, fun h => ?_⟩
    · cases xs with
      | nil =>
        cases h
        exact counts_fixed (by decide) (by decide) (by decide) (by decide)
      | cons x xs =>
        rw [compileExpr] at h
        obtain ⟨k, hk, h⟩ := Option.bind_eq_some_iff.mp h
        rw [excess, hk]
        exact call_counts (hs.goodHead hk) hs.1 hgood h
    · rw [compileLet] at h
      obtain ⟨⟨e, env₁, l⟩, h1, h⟩ := Option.bind_eq_some_iff.mp h
      cases h
      exact pairs_counts hgood h1
    · rcases xs with _ | ⟨x, _ | ⟨y, ys⟩⟩
      · cases h
      · cases h
      · rw [compilePair] at h
        obtain ⟨k, hk, h⟩ := Option.bind_eq_some_iff.mp h
        obtain ⟨⟨e, l⟩, h1, h⟩ := Option.bind_eq_some_iff.mp h
        cases h
        rw [excessPair, hk]
        exact ⟨((hgood y (by simp)).expr h1).store _, rfl⟩

/-! ### The jumps -/

/-- The text is whole statements without an operand that is `r` and no more. -/
def Whole (t : Text) : Prop := ∃ d, Counts d t

/-- The statements that are words -/
def coded (ss : List Stmt) : List Stmt := ss.filter fun
  | .label _ => false
  | _ => true

/-- How many words a text is: the place of the word that follows it. -/
def place (t : Text) : ℕ := (wordsOf (reading t).stmts).length

/-- The word at `q` is a jump relative to it, to the word at `target`. -/
def JumpsTo (code : Text) (q target : ℕ) : Prop :=
  ∃ r v, (coded (reading code).stmts)[q]? = some (.instr 14 [r, pc] (.imm v)) ∧
    (q : ℤ) + v = target

lemma coded_length (ss : List Stmt) : (coded ss).length = (wordsOf ss).length := by
  induction ss with
  | nil => rfl
  | cons st ss ih =>
    rw [coded, List.filter_cons, ← coded]
    cases st with
    | label t => exact ih
    | data w => exact congrArg (· + 1) ih
    | instr op regs last => exact congrArg (· + 1) ih

lemma compile_whole (h : Whole t) (h0 : t ≠ []) :
    compile t = emit (layout (reading t).stmts 0) (reading t).stmts := by
  obtain ⟨d, ss, hcode, hbare, -⟩ := h
  rw [compile_code hcode h0 hbare, hcode.stmts]

lemma place_of_code (h : Code t ss) : place t = (wordsOf ss).length := by rw [place, h.stmts]

variable {pre post a b code : Text} {o r q n target : ℕ} {v : ℤ}

/-- **A jump** between two texts is to the word that its number says, if it is small. -/
lemma jumpsTo_iff (ha : Code a ss) (hj : Code code [numLine 14 r pc v]) (hb : Whole b)
    (target : ℕ) :
    JumpsTo (a ++ code ++ b) (place a) target ↔
      v.natAbs < 2 ^ 45 ∧ (place a : ℤ) + v = target := by
  obtain ⟨-, ss', hb, -⟩ := hb
  have hget : (coded (reading (a ++ code ++ b)).stmts)[place a]? = some (numLine 14 r pc v) := by
    rw [((ha.append hj).append hb).stmts, coded, List.filter_append, List.filter_append, ← coded,
      List.append_assoc, List.getElem?_append_right (by rw [coded_length, place_of_code ha]),
      coded_length, place_of_code ha, Nat.sub_self]
    rfl
  rw [JumpsTo, hget, numLine, lastOperand_toHex]
  split_ifs with hv
  · refine ⟨fun ⟨r', v', h, h'⟩ => ?_, fun h => ⟨r, v, rfl, h.2⟩⟩
    cases h
    exact ⟨hv, h'⟩
  · exact ⟨fun ⟨r', v', h, _⟩ => (nomatch h), fun h => absurd h.1 hv⟩

lemma Counts.place_eq (h : Counts d t) : (place t : ℤ) = lines t + d := by
  obtain ⟨ss, h1, -, h3⟩ := h
  rw [place_of_code h1, h3]

lemma Whole.append (hs : Whole s) (ht : Whole t) :
    Whole (s ++ t) ∧ place (s ++ t) = place s + place t := by
  obtain ⟨d, hs⟩ := hs
  obtain ⟨d', ht⟩ := ht
  refine ⟨⟨_, hs.append ht⟩, ?_⟩
  have := (hs.append ht).place_eq
  rw [lines_append, Nat.cast_add, add_add_add_comm, ← hs.place_eq, ← ht.place_eq] at this
  exact_mod_cast this

lemma lines_line (t : Text) (v : ℤ) (h : lines t = 0) : lines (t ++ toHex v ++ chars "\n") = 1 := by
  rw [lines_append, lines_append, h, lines_solid (solid_toHex v)]
  rfl

lemma place_jump (v : ℤ) : Whole (jump v) ∧ place (jump v) = 1 := by
  have h := counts_jump v
  have h1 := h.place_eq
  rw [jump, lines_line _ _ (by decide)] at h1
  exact ⟨⟨0, h⟩, by exact_mod_cast h1⟩

lemma place_jumpAlways (v : ℤ) :
    Whole (jumpAlways v) ∧ place (jumpAlways v) = 1 := by
  have h := counts_jumpAlways v
  have h1 := h.place_eq
  rw [jumpAlways, lines_line _ _ (by decide)] at h1
  exact ⟨⟨0, h⟩, by exact_mod_cast h1⟩

lemma code_jump (v : ℤ) : Code (jump v) [numLine 14 rr pc v] :=
  code_numLine (chars "jnc r1d r1e ") v (by decide) (by decide)

lemma code_jumpAlways (v : ℤ) : Code (jumpAlways v) [numLine 14 sr pc v] :=
  code_numLine (chars "jnc r1f r1e ") v (by decide) (by decide)

/-- The jumps of `if` between its parts -/
lemma if_jumps (hpre : Whole pre) (hpost : Whole post) (h₁ : Counts d₁ e₁) (h₂ : Counts d₂ e₂)
    (h₃ : Counts d₃ e₃) :
    (JumpsTo (pre ++ ifText e₁ e₂ e₃ ++ post) (place (pre ++ e₁ ++ test))
        (place (pre ++ e₁ ++ test ++ jump (2 + lines e₂) ++ e₂ ++ jumpAlways (1 + lines e₃))) ↔
      2 + lines e₂ < 2 ^ 45 ∧ d₂ = 0) ∧
    (JumpsTo (pre ++ ifText e₁ e₂ e₃ ++ post)
        (place (pre ++ e₁ ++ test ++ jump (2 + lines e₂) ++ e₂))
        (place (pre ++ ifText e₁ e₂ e₃)) ↔
      1 + lines e₃ < 2 ^ 45 ∧ d₃ = 0) := by
  have htext : pre ++ ifText e₁ e₂ e₃ = pre ++ e₁ ++ test ++ jump (2 + lines e₂) ++ e₂ ++
      jumpAlways (1 + lines e₃) ++ e₃ := by
    simp [ifText, test, jump, jumpAlways]
  obtain ⟨hj, hj1⟩ := place_jump (2 + lines e₂)
  obtain ⟨hk, hk1⟩ := place_jumpAlways (1 + lines e₃)
  obtain ⟨ha, -⟩ := (hpre.append ⟨_, h₁⟩).1.append ⟨_, counts_test⟩
  obtain ⟨hb, hb1⟩ := ha.append hj
  obtain ⟨hc, hc1⟩ := hb.append ⟨_, h₂⟩
  obtain ⟨-, hd1⟩ := hc.append hk
  obtain ⟨-, he1⟩ := (hc.append hk).1.append ⟨_, h₃⟩
  obtain ⟨hf, -⟩ := Whole.append ⟨_, h₃⟩ hpost
  obtain ⟨hg, -⟩ := (Whole.append ⟨_, h₂⟩ hk).1.append hf
  have hp₂ := h₂.place_eq
  have hp₃ := h₃.place_eq
  rw [htext]
  constructor
  · obtain ⟨d, ss, hcode, -⟩ := ha
    have h := jumpsTo_iff hcode (code_jump (2 + lines e₂)) hg (place (pre ++ e₁ ++ test ++
      jump (2 + lines e₂) ++ e₂ ++ jumpAlways (1 + lines e₃)))
    simp only [← List.append_assoc] at h
    rw [h, hd1, hc1, hb1]
    omega
  · obtain ⟨d, ss, hcode, -⟩ := hc
    have h := jumpsTo_iff hcode (code_jumpAlways (1 + lines e₃)) hf (place (pre ++ e₁ ++
      test ++ jump (2 + lines e₂) ++ e₂ ++ jumpAlways (1 + lines e₃) ++ e₃))
    simp only [← List.append_assoc] at h
    rw [h, he1, hd1]
    omega

/-- The jumps of `loop` between its parts -/
lemma loop_jumps (hpre : Whole pre) (hpost : Whole post) (h₁ : Counts d₁ e₁) (h₂ : Counts d₂ e₂) :
    (JumpsTo (pre ++ loopText e₁ e₂ ++ post) (place (pre ++ e₁ ++ test))
        (place (pre ++ loopText e₁ e₂)) ↔
      2 + lines e₂ < 2 ^ 45 ∧ d₂ = 0) ∧
    (JumpsTo (pre ++ loopText e₁ e₂ ++ post)
        (place (pre ++ e₁ ++ test ++ jump (2 + lines e₂) ++ e₂)) (place pre) ↔
      3 + lines e₂ + lines e₁ < 2 ^ 45 ∧ d₁ + d₂ = 0) := by
  have htext : pre ++ loopText e₁ e₂ = pre ++ e₁ ++ test ++ jump (2 + lines e₂) ++ e₂ ++
      jumpAlways (-(3 + lines e₂ + lines e₁ : ℕ)) := by
    rw [loopText_eq]
    simp
  obtain ⟨hj, hj1⟩ := place_jump (2 + lines e₂)
  obtain ⟨hk, hk1⟩ := place_jumpAlways (-(3 + lines e₂ + lines e₁ : ℕ))
  obtain ⟨h0, h01⟩ := hpre.append ⟨_, h₁⟩
  obtain ⟨ha, ha1⟩ := h0.append ⟨_, counts_test⟩
  obtain ⟨hb, hb1⟩ := ha.append hj
  obtain ⟨hc, hc1⟩ := hb.append ⟨_, h₂⟩
  obtain ⟨-, hd1⟩ := hc.append hk
  obtain ⟨hf, -⟩ := (Whole.append ⟨_, h₂⟩ hk).1.append hpost
  have hp₁ := h₁.place_eq
  have hp₂ := h₂.place_eq
  have htest : place test = 2 := by decide
  rw [htext]
  constructor
  · obtain ⟨d, ss, hcode, -⟩ := ha
    have h := jumpsTo_iff hcode (code_jump (2 + lines e₂)) hf (place (pre ++ e₁ ++ test ++
      jump (2 + lines e₂) ++ e₂ ++ jumpAlways (-(3 + lines e₂ + lines e₁ : ℕ))))
    simp only [← List.append_assoc] at h
    rw [h, hd1, hc1, hb1]
    omega
  · obtain ⟨d, ss, hcode, -⟩ := hc
    have h := jumpsTo_iff hcode (code_jumpAlways (-(3 + lines e₂ + lines e₁ : ℕ))) hpost
      (place pre)
    rw [h, hc1, hb1, ha1, h01]
    omega

/-! ### The jumps of an expression -/

/-- **The jumps** of `if` and `loop` are to the words that follow the branches, or to the first word
of the condition, if and only if the `asm` blocks between have as many words as there are blocks. -/
theorem jumps_iff (hpre : Whole pre) (hpost : Whole post) (idx : ℕ) (env : Env) (ls ls' : Labels) :
    (∀ x y z zs t, Sound (.list (.sym (chars "if") :: x :: y :: z :: zs)) →
      compileExpr (.list (.sym (chars "if") :: x :: y :: z :: zs)) idx env ls = some (t, ls') →
      ∃ e₁ e₂ e₃, t = ifText e₁ e₂ e₃ ∧ (∃ l₂ l₃, compileExpr y idx env ls = some (e₂, l₂) ∧
          compileExpr z idx env l₂ = some (e₃, l₃) ∧ compileExpr x idx env l₃ = some (e₁, ls')) ∧
        compile (pre ++ t ++ post) =
          emit (layout (reading (pre ++ t ++ post)).stmts 0) (reading (pre ++ t ++ post)).stmts ∧
        (JumpsTo (pre ++ t ++ post) (place (pre ++ e₁ ++ test))
            (place (pre ++ e₁ ++ test ++ jump (2 + lines e₂) ++ e₂ ++ jumpAlways (1 + lines e₃))) ↔
          2 + lines e₂ < 2 ^ 45 ∧ excess y (env.map Prod.fst) = 0) ∧
        (JumpsTo (pre ++ t ++ post) (place (pre ++ e₁ ++ test ++ jump (2 + lines e₂) ++ e₂))
            (place (pre ++ t)) ↔
          1 + lines e₃ < 2 ^ 45 ∧ excess z (env.map Prod.fst) = 0)) ∧
    (∀ x ys t, Sound (.list (.sym (chars "loop") :: x :: ys)) →
      compileExpr (.list (.sym (chars "loop") :: x :: ys)) idx env ls = some (t, ls') →
      ∃ e₁ e₂, t = loopText e₁ e₂ ∧ (∃ l₂, compileSeq ys idx env ls = some (e₂, l₂) ∧
          compileExpr x idx env l₂ = some (e₁, ls')) ∧
        compile (pre ++ t ++ post) =
          emit (layout (reading (pre ++ t ++ post)).stmts 0) (reading (pre ++ t ++ post)).stmts ∧
        (JumpsTo (pre ++ t ++ post) (place (pre ++ e₁ ++ test)) (place (pre ++ t)) ↔
          2 + lines e₂ < 2 ^ 45 ∧ excessSeq ys (env.map Prod.fst) = 0) ∧
        (JumpsTo (pre ++ t ++ post) (place (pre ++ e₁ ++ test ++ jump (2 + lines e₂) ++ e₂))
            (place pre) ↔
          3 + lines e₂ + lines e₁ < 2 ^ 45 ∧
            excess x (env.map Prod.fst) + excessSeq ys (env.map Prod.fst) = 0)) := by
  constructor
  · intro x y z zs t hs h
    have hgood (w : Ast) (hw : w ∈ x :: y :: z :: zs) : Good w :=
      good w (soundList_iff.mp hs.1 w (List.mem_cons_of_mem _ hw))
    rw [compileExpr, keyOf, Option.bind_some, show headOf (.sym (chars "if")) = .ifE from rfl,
      compileCall] at h
    obtain ⟨⟨e₂, l₂⟩, h2, h⟩ := Option.bind_eq_some_iff.mp h
    obtain ⟨⟨e₃, l₃⟩, h3, h⟩ := Option.bind_eq_some_iff.mp h
    obtain ⟨⟨e₁, l₁⟩, h1, h⟩ := Option.bind_eq_some_iff.mp h
    cases h
    have hc₁ := (hgood x (by simp)).expr h1
    have hc₂ := (hgood y (by simp)).expr h2
    have hc₃ := (hgood z (by simp)).expr h3
    refine ⟨e₁, e₂, e₃, rfl, ⟨l₂, l₃, h2, h3, h1⟩, ?_, if_jumps hpre hpost hc₁ hc₂ hc₃⟩
    exact compile_whole ((hpre.append ⟨_, counts_ifText hc₁ hc₂ hc₃⟩).1.append hpost).1
      (by simp [ifText, chars])
  · intro x ys t hs h
    have hgood (w : Ast) (hw : w ∈ x :: ys) : Good w :=
      good w (soundList_iff.mp hs.1 w (List.mem_cons_of_mem _ hw))
    rw [compileExpr, keyOf, Option.bind_some, show headOf (.sym (chars "loop")) = .loop from rfl,
      compileCall] at h
    obtain ⟨⟨e₂, l₂⟩, h2, h⟩ := Option.bind_eq_some_iff.mp h
    obtain ⟨⟨e₁, l₁⟩, h1, h⟩ := Option.bind_eq_some_iff.mp h
    cases h
    have hc₁ := (hgood x (by simp)).expr h1
    have hc₂ := seq_counts (fun w hw => hgood w (List.mem_cons_of_mem x hw)) h2
    refine ⟨e₁, e₂, rfl, ⟨l₂, h2, h1⟩, ?_, loop_jumps hpre hpost hc₁ hc₂⟩
    exact compile_whole ((hpre.append ⟨_, counts_loopText hc₁ hc₂⟩).1.append hpost).1
      (by simp [loopText, chars])

/-- An `if` with a block of the words `ws` as its first branch -/
def blockIf (ws : List ℤ) : Ast :=
  .list [.sym (chars "if"), .int 1, .list [.sym (chars "asm"), .list (ws.map .int)], .int 2]

lemma sound_blockIf {ws : List ℤ} (h : WholeBlock (ws.map toHex)) : Sound (blockIf ws) := by
  have hitems (ws : List ℤ) : asmItems (.list (ws.map .int)) = some (ws.map toHex) := by
    rw [asmItems]
    induction ws with
    | nil => rfl
    | cons w ws ih =>
      rw [List.map_cons, List.mapM_cons, asmItem, ih]
      rfl
  have hints : Sound (.list (ws.map .int)) := by
    refine ⟨soundList_iff.mpr fun x hx => ?_, fun x ys items hxs => ?_⟩
    · obtain ⟨w, -, rfl⟩ := List.mem_map.mp hx
      trivial
    · cases ws <;> simp at hxs
  have hasm : Sound (.list [.sym (chars "asm"), .list (ws.map .int)]) := by
    refine ⟨⟨(show ∀ c ∈ chars "asm", whitespace c = false by decide), hints, trivial⟩, ?_⟩
    intro x ys items hxs hi
    obtain ⟨-, hxs⟩ := List.cons.inj hxs
    obtain ⟨rfl, -⟩ := List.cons.inj hxs
    obtain rfl := Option.some.inj ((hitems ws).symm.trans hi)
    exact h
  have hif : ∀ c ∈ chars "if", whitespace c = false := by decide
  refine ⟨⟨hif, trivial, hasm, trivial, trivial⟩, ?_⟩
  intro x ys items hxs
  exact absurd (Ast.sym.inj (List.cons.inj hxs).1) (by decide)

/-- The text of such an `if` -/
def blockIfText (ws : List ℤ) : Text :=
  ifText (compileInt 1) (asmText (ws.map toHex)) (compileInt 2)

/-- With a block of one word both jumps are right. -/
theorem jumps_blockIf : compileExpr (blockIf [18]) 0 [] [] = some (blockIfText [18], []) ∧
    JumpsTo (blockIfText [18]) 4 7 ∧ JumpsTo (blockIfText [18]) 6 9 := by
  have hsound : Sound (blockIf [18]) := sound_blockIf ⟨by decide, by decide⟩
  have hnil : Whole [] := ⟨0, Counts.nil⟩
  obtain ⟨e₁, e₂, e₃, -, ⟨l₂, l₃, h2, h3, h1⟩, -, hj, hk⟩ :=
    (jumps_iff hnil hnil 0 [] [] []).1 _ _ _ _ (blockIfText [18]) hsound rfl
  obtain rfl : asmText [toHex 18] = e₂ := congrArg Prod.fst (Option.some.inj h2)
  obtain rfl : compileInt 2 = e₃ := congrArg Prod.fst (Option.some.inj h3)
  obtain rfl : compileInt 1 = e₁ := congrArg Prod.fst (Option.some.inj h1)
  exact ⟨rfl, hj.mpr (by decide), hk.mpr (by decide)⟩

/-- With a block of two words the first jump is not to the second branch. -/
theorem jumps_longBlock : Sound (blockIf [18, 18]) ∧
    compileExpr (blockIf [18, 18]) 0 [] [] = some (blockIfText [18, 18], []) ∧
    ¬ JumpsTo (blockIfText [18, 18]) (place (compileInt 1 ++ test))
      (place (compileInt 1 ++ test ++ jump 3 ++ asmText ([18, 18].map toHex) ++ jumpAlways 3)) := by
  have hblock : WholeBlock ([18, 18].map toHex) := ⟨by decide, by decide⟩
  have hsolid : ∀ t ∈ [18, 18].map toHex, Solid t := by simp [solid_toHex]
  refine ⟨sound_blockIf hblock, rfl, fun h => ?_⟩
  have hnil : Whole [] := ⟨0, Counts.nil⟩
  have h1 := (if_jumps hnil hnil (counts_compileInt 1) (counts_asmText hsolid hblock)
    (counts_compileInt 2)).1.mp h
  exact absurd h1.2 (by decide)

end LispMachine.CompileJumps
