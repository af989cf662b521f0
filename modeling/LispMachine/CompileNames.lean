import LispMachine.CompilePy
import Mathlib.Data.List.Forall2

/-!
Names in the compiler.

A source is a tree of words. Two trees are the same but for the names that they bind if each word
that is bound in one of them refers to the binding at the same place of the scope in the other one.
Such trees have the same code as long as no name that they bind is a number for `int`.
-/

namespace LispMachine.CompileNames

open LispMachine.Memory LispMachine.CompilePy

/-! ### Trees of words -/

/-- A source: its words, and what is between brackets. -/
inductive Src
  | word (t : Text)
  | list (xs : List Src)

mutual

/-- The nested lists of a source -/
def Src.ast (u : Unicode) : Src → Ast
  | .word t => leaf u t
  | .list xs => .list (asts u xs)

def asts (u : Unicode) : List Src → List Ast
  | [] => []
  | x :: xs => x.ast u :: asts u xs

end

/-- The loop of `tok` for words, with the text from the index on, for at most `n` steps. -/
def tokWords : ℕ → Text → List Src → Text × List Src
  | 0, s, out => (s, out)
  | _ + 1, [], out => ([], out)
  | n + 1, c :: s, out =>
    if c = 91 then
      let (s, x) := tokWords n s []
      tokWords n s (out ++ [.list x])
    else if c = 93 then (s, out)
    else if ws c then tokWords n s out
    else
      let t := (c :: s).takeWhile fun c => !prims c && !ws c
      tokWords n ((c :: s).drop t.length) (out ++ [.word t])

/-- The source that a text is. -/
def sources (s : Text) : List Src := (tokWords (s.length + 1) s []).2

variable {u : Unicode} {N : Text → Prop} {ls : Labels} {idx n : ℕ} {a b h t : Text} {k : Key}
variable {x y : Src} {xs ys es fs ps qs : List Src}

lemma asts_append (u : Unicode) (xs ys : List Src) :
    asts u (xs ++ ys) = asts u xs ++ asts u ys := by
  induction xs with
  | nil => rfl
  | cons x xs ih => exact congrArg (x.ast u :: ·) ih

lemma tok_eq (u : Unicode) (n : ℕ) (s : Text) (out : List Src) :
    tok u n s (asts u out) = ((tokWords n s out).1, asts u (tokWords n s out).2) := by
  induction n generalizing s out with
  | zero => rfl
  | succ n ih =>
    have hlist (x : List Src) : asts u out ++ [.list (asts u x)] = asts u (out ++ [.list x]) :=
      (asts_append u out [.list x]).symm
    have hword (t : Text) : asts u out ++ [leaf u t] = asts u (out ++ [.word t]) :=
      (asts_append u out [.word t]).symm
    cases s with
    | nil => rfl
    | cons c s =>
      rw [tok, tokWords]
      split_ifs
      · have h1 := ih s []
        rw [show asts u [] = [] from rfl] at h1
        rw [h1]
        dsimp only
        rw [hlist, ih]
      · rfl
      · exact ih s out
      · dsimp only
        rw [hword, ih]

/-- The words are read before their numbers are. -/
lemma tokenize_eq (u : Unicode) (s : Text) : tokenize u s = asts u (sources s) :=
  congrArg Prod.snd (tok_eq u (s.length + 1) s [])

/-! ### Sources that are the same but for names -/

/-- The bound names of two sources, the latest first. -/
abbrev Scope := List (Text × Text)

/-- The two words refer to the same binding, or they are the same word and bound in none of the
sources. -/
def Refers : Scope → Text → Text → Prop
  | [], a, b => a = b
  | (p, q) :: ρ, a, b => (a = p ∧ b = q) ∨ (a ≠ p ∧ b ≠ q ∧ Refers ρ a b)

/-- The lists that begin with these words bind names, or they are no expressions. -/
def special : List Text := [chars "let", chars "set", chars ":", chars "asm"]

inductive Kind
  | exprs
  | bindings

/-- The lists `xs` and `ys` are expressions, or the bindings of `let`, that are the same but for the
names that they bind; the names satisfy `N`. The last argument is the scope behind them. -/
inductive Alpha (N : Text → Prop) : Kind → Scope → List Src → List Src → Scope → Prop
  | nil {k ρ} : Alpha N k ρ [] [] ρ
  | word {ρ a b xs ys} : Refers ρ a b → Alpha N .exprs ρ xs ys ρ →
      Alpha N .exprs ρ (.word a :: xs) (.word b :: ys) ρ
  | empty {ρ xs ys} : Alpha N .exprs ρ xs ys ρ →
      Alpha N .exprs ρ (.list [] :: xs) (.list [] :: ys) ρ
  | plain {ρ h es fs xs ys} : h ∉ special → Alpha N .exprs ρ es fs ρ → Alpha N .exprs ρ xs ys ρ →
      Alpha N .exprs ρ (.list (.word h :: es) :: xs) (.list (.word h :: fs) :: ys) ρ
  | asm {ρ es xs ys} : Alpha N .exprs ρ xs ys ρ →
      Alpha N .exprs ρ (.list (.word (chars "asm") :: es) :: xs)
        (.list (.word (chars "asm") :: es) :: ys) ρ
  | set {ρ a b es fs xs ys} : Refers ρ a b → Alpha N .exprs ρ es fs ρ → Alpha N .exprs ρ xs ys ρ →
      Alpha N .exprs ρ (.list (.word (chars "set") :: .word a :: es) :: xs)
        (.list (.word (chars "set") :: .word b :: fs) :: ys) ρ
  | letE {ρ ρ' ps qs es fs xs ys} : Alpha N .bindings ρ ps qs ρ' → Alpha N .exprs ρ' es fs ρ' →
      Alpha N .exprs ρ xs ys ρ →
      Alpha N .exprs ρ (.list (.word (chars "let") :: .list ps :: es) :: xs)
        (.list (.word (chars "let") :: .list qs :: fs) :: ys) ρ
  | fn {ρ} {σ : Scope} {f es fs xs ys} : (∀ p ∈ σ, N p.1 ∧ N p.2) →
      Alpha N .exprs σ.reverse es fs σ.reverse → Alpha N .exprs ρ xs ys ρ →
      Alpha N .exprs ρ
        (.list (.word (chars ":") :: .word f :: .list (σ.map (.word ·.1)) :: es) :: xs)
        (.list (.word (chars ":") :: .word f :: .list (σ.map (.word ·.2)) :: fs) :: ys) ρ
  | bind {ρ ρ' a b e f ps qs} : N a → N b →
      Alpha N .exprs ((a, b) :: ρ) [e] [f] ((a, b) :: ρ) →
      Alpha N .bindings ((a, b) :: ρ) ps qs ρ' →
      Alpha N .bindings ρ (.list [.word a, e] :: ps) (.list [.word b, f] :: qs) ρ'

/-! ### Their code -/

variable {ρ ρ' : Scope} {e₁ e₂ : Env}

/-- The environments give the same slots to the names of the scope. -/
inductive Aligned (u : Unicode) : Scope → Env → Env → Prop
  | nil : Aligned u [] [] []
  | cons {p q : Text} {σ : Scope} {f₁ f₂ : Env} (slot : ℤ) : pyInt u p = none →
      pyInt u q = none → Aligned u σ f₁ f₂ →
      Aligned u ((p, q) :: σ) ((.sym p, slot) :: f₁) ((.sym q, slot) :: f₂)

lemma leaf_of_none (h : pyInt u t = none) : leaf u t = .sym t := by rw [leaf, h]

lemma keyOf_leaf (u : Unicode) (t : Text) :
    (∃ n, leaf u t = .int n ∧ keyOf (leaf u t) = some (.int n)) ∨
      (leaf u t = .sym t ∧ keyOf (leaf u t) = some (.sym t)) := by
  cases h : pyInt u t with
  | none => exact .inr ⟨leaf_of_none h, by rw [leaf_of_none h, keyOf]⟩
  | some n =>
    have hl : leaf u t = .int n := by rw [leaf, h]
    exact .inl ⟨n, hl, by rw [hl, keyOf]⟩

/-- Words that refer to the same binding are found at the same slot. -/
lemma Aligned.refers (h : Aligned u ρ e₁ e₂) (hr : Refers ρ a b) :
    ∃ k₁ k₂, keyOf (leaf u a) = some k₁ ∧ keyOf (leaf u b) = some k₂ ∧
      e₁.lookup k₁ = e₂.lookup k₂ ∧ (k₁ = k₂ ∨ k₁ = .sym a ∧ k₂ = .sym b) := by
  induction h with
  | nil =>
    obtain rfl : a = b := hr
    obtain ⟨n, -, hk⟩ | ⟨-, hk⟩ := keyOf_leaf u a <;> exact ⟨_, _, hk, hk, rfl, .inl rfl⟩
  | @cons p q ρ e₁ e₂ slot hp hq _ ih =>
    rcases hr with ⟨rfl, rfl⟩ | ⟨ha, hb, hr⟩
    · refine ⟨.sym a, .sym b, by rw [leaf_of_none hp, keyOf], by rw [leaf_of_none hq, keyOf], ?_,
        .inr ⟨rfl, rfl⟩⟩
      rw [List.lookup_cons_self, List.lookup_cons_self]
    · obtain ⟨k₁, k₂, h1, h2, h3, h4⟩ := ih hr
      have hne {k : Key} {c r : Text} (hk : keyOf (leaf u c) = some k) (hc : c ≠ r) :
          (k == Key.sym r) = false := by
        obtain ⟨n, -, hk'⟩ | ⟨-, hk'⟩ := keyOf_leaf u c
        · obtain rfl := Option.some.inj (hk'.symm.trans hk)
          rfl
        · obtain rfl := Option.some.inj (hk'.symm.trans hk)
          exact decide_eq_false (mt Key.sym.inj hc)
      refine ⟨k₁, k₂, h1, h2, ?_, h4⟩
      rw [List.lookup_cons, List.lookup_cons, hne h1 ha, hne h2 hb]
      exact h3

/-- What a word is compiled to -/
def keyCode (k : Key) (env : Env) : Option Text :=
  match k with
  | .int n => some (compileInt n)
  | .sym t => compileVar t env

lemma compileExpr_leaf {env : Env} (h : keyOf (leaf u t) = some k) :
    compileExpr (leaf u t) idx env ls = (keyCode k env).map (·, ls) := by
  obtain ⟨n, hl, hk⟩ | ⟨hl, hk⟩ := keyOf_leaf u t <;>
    · obtain rfl := Option.some.inj (hk.symm.trans h)
      rw [hl, compileExpr, keyCode]
      try rfl

lemma Aligned.word (h : Aligned u ρ e₁ e₂) (hr : Refers ρ a b) (idx : ℕ) (ls : Labels) :
    compileExpr (leaf u a) idx e₁ ls = compileExpr (leaf u b) idx e₂ ls := by
  obtain ⟨k₁, k₂, h1, h2, h3, h4⟩ := h.refers hr
  have hvar (c d : Text) (hcd : e₁.lookup (.sym c) = e₂.lookup (.sym d)) :
      keyCode (.sym c) e₁ = keyCode (.sym d) e₂ := by
    rw [keyCode, keyCode, compileVar, compileVar, hcd]
  rw [compileExpr_leaf h1, compileExpr_leaf h2]
  rcases h4 with rfl | ⟨rfl, rfl⟩
  · cases k₁ with
    | int n => rfl
    | sym t => rw [hvar t t h3]
  · rw [hvar a b h3]

/-- The sources have the same code in environments for the scope. -/
def SameCode (u : Unicode) (ρ : Scope) (x y : Src) : Prop :=
  ∀ e₁ e₂ idx ls, Aligned u ρ e₁ e₂ →
    compileExpr (x.ast u) idx e₁ ls = compileExpr (y.ast u) idx e₂ ls

lemma seq_congr (h : List.Forall₂ (SameCode u ρ) xs ys) (ha : Aligned u ρ e₁ e₂) (idx : ℕ)
    (ls : Labels) : compileSeq (asts u xs) idx e₁ ls = compileSeq (asts u ys) idx e₂ ls := by
  induction h generalizing ls with
  | nil => rfl
  | cons hxy _ ih =>
    rw [asts, asts, compileSeq, compileSeq, hxy _ _ idx ls ha]
    simp only [ih]

lemma args_congr (h : List.Forall₂ (SameCode u ρ) xs ys) (ha : Aligned u ρ e₁ e₂) (idx : ℕ)
    (ls : Labels) : compileArgs (asts u xs) idx e₁ ls = compileArgs (asts u ys) idx e₂ ls := by
  induction h generalizing idx ls with
  | nil => rfl
  | cons hxy _ ih =>
    rw [asts, asts, compileArgs, compileArgs, hxy _ _ idx ls ha]
    simp only [ih]

lemma asts_length (u : Unicode) (xs : List Src) : (asts u xs).length = xs.length := by
  induction xs with
  | nil => rfl
  | cons x xs ih => exact congrArg (· + 1) ih

/-- The heads behind which there are expressions -/
def Plain : Head → Prop
  | .binary _ | .ifE | .loop | .call _ => True
  | _ => False

lemma call_congr {hd : Head} (hp : Plain hd) (x : Ast) (h : List.Forall₂ (SameCode u ρ) xs ys)
    (ha : Aligned u ρ e₁ e₂) (idx : ℕ) (ls : Labels) :
    compileCall hd (x :: asts u xs) idx e₁ ls = compileCall hd (x :: asts u ys) idx e₂ ls := by
  cases hd with
  | letE => exact absurd hp id
  | set => exact absurd hp id
  | fn => exact absurd hp id
  | asm => exact absurd hp id
  | call m =>
    rw [compileCall, compileCall, args_congr h ha, asts_length, asts_length, h.length_eq]
  | loop =>
    cases h with
    | nil => rfl
    | cons hx h =>
      have h1 (ls : Labels) := hx _ _ idx ls ha
      rw [asts, asts, compileCall, compileCall, seq_congr h ha]
      simp only [h1]
  | ifE =>
    rcases h with _ | ⟨hx, _ | ⟨hy, _ | ⟨hz, h⟩⟩⟩
    · rfl
    · rfl
    · rfl
    · have h1 (ls : Labels) := hx _ _ idx ls ha
      have h2 (ls : Labels) := hy _ _ idx ls ha
      have h3 (ls : Labels) := hz _ _ idx ls ha
      simp only [asts, compileCall, h1, h2, h3]
  | binary b =>
    obtain ⟨op, _ | _⟩ := b <;> rcases h with _ | ⟨hx, _ | ⟨hy, _ | ⟨hz, h⟩⟩⟩ <;> try rfl
    all_goals
      have h1 (k : ℕ) (ls : Labels) := hx _ _ (idx + k) ls ha
      have h2 (k : ℕ) (ls : Labels) := hy _ _ (idx + k) ls ha
      simp only [asts, compileCall, h1, h2]

lemma Aligned.append {σ : Scope} {f₁ f₂ : Env} (h : Aligned u σ f₁ f₂) (ha : Aligned u ρ e₁ e₂) :
    Aligned u (σ ++ ρ) (f₁ ++ e₁) (f₂ ++ e₂) := by
  induction h with
  | nil => exact ha
  | cons slot hp hq _ ih => exact .cons slot hp hq ih

/-- The names of the parameters, in either source -/
lemma paramKeys_words {ts : List Text} (h : ∀ t ∈ ts, pyInt u t = none) :
    paramKeys ((Src.list (ts.map .word)).ast u) = some (ts.map .sym) := by
  rw [Src.ast, paramKeys]
  induction ts with
  | nil => rfl
  | cons t ts ih =>
    rw [List.map_cons, asts, List.mapM_cons, Src.ast, leaf_of_none (h t (by simp)), keyOf,
      ih fun t ht => h t (by simp [ht])]
    rfl

lemma aligned_params {σ : Scope} (h : ∀ p ∈ σ, pyInt u p.1 = none ∧ pyInt u p.2 = none)
    (f : ℕ → ℤ) (i : ℕ) : Aligned u σ.reverse
      (((σ.map (Key.sym ·.1)).zipIdx i).map fun (k, i) => (k, f i)).reverse
      (((σ.map (Key.sym ·.2)).zipIdx i).map fun (k, i) => (k, f i)).reverse := by
  induction σ generalizing i with
  | nil => exact .nil
  | cons p σ ih =>
    obtain ⟨h1, h2⟩ := h p (by simp)
    simp only [List.map_cons, List.zipIdx_cons, List.reverse_cons]
    exact (ih (fun p hp => h p (by simp [hp])) (i + 1)).append (.cons _ h1 h2 .nil)

/-- The results for the bindings of `let` are the same but for the names. -/
def SameLet (u : Unicode) (ρ : Scope) (p q : Option (Text × Env × Labels)) : Prop :=
  (p = none ∧ q = none) ∨
    ∃ t e₁ e₂ ls, p = some (t, e₁, ls) ∧ q = some (t, e₂, ls) ∧ Aligned u ρ e₁ e₂

/-- What two lists that are the same but for names have in common -/
def Agree (u : Unicode) : Kind → Scope → List Src → List Src → Scope → Prop
  | .exprs, ρ, xs, ys, _ => List.Forall₂ (SameCode u ρ) xs ys
  | .bindings, ρ, ps, qs, ρ' => ps.length = qs.length ∧ ∀ e₁ e₂ idx ls, Aligned u ρ e₁ e₂ →
      SameLet u ρ' (compilePairs (asts u ps) idx e₁ ls) (compilePairs (asts u qs) idx e₂ ls)

lemma plain_headOf (hh : h ∉ special) (hk : keyOf (leaf u h) = some k) : Plain (headOf k) := by
  obtain ⟨n, -, hk'⟩ | ⟨-, hk'⟩ := keyOf_leaf u h
  · obtain rfl := Option.some.inj (hk'.symm.trans hk)
    trivial
  · obtain rfl := Option.some.inj (hk'.symm.trans hk)
    simp only [special, List.mem_cons, List.not_mem_nil, or_false, not_or] at hh
    rw [headOf]
    split
    · trivial
    · rw [if_neg hh.1, if_neg hh.2.1]
      split_ifs
      · trivial
      · trivial
      · exact absurd ‹_› hh.2.2.1
      · exact absurd ‹_› hh.2.2.2
      · trivial

lemma leaf_special (u : Unicode) : ∀ t ∈ special, leaf u t = .sym t := by
  have h1 : pyInt u (chars "let") = none := rfl
  have h2 : pyInt u (chars "set") = none := rfl
  have h3 : pyInt u (chars ":") = none := rfl
  have h4 : pyInt u (chars "asm") = none := rfl
  simpa [special] using ⟨leaf_of_none h1, leaf_of_none h2, leaf_of_none h3, leaf_of_none h4⟩

/-- A list that begins with a special word -/
lemma compileExpr_special (ht : t ∈ special) {hd : Head} (hh : headOf (.sym t) = hd) (xs : List Src)
    (env : Env) : compileExpr ((Src.list (.word t :: xs)).ast u) idx env ls =
      compileCall hd (.sym t :: asts u xs) idx env ls := by
  rw [Src.ast, asts, Src.ast, leaf_special u t ht, compileExpr, keyOf, Option.bind_some, hh]

lemma set_congr (hr : Refers ρ a b) (h : List.Forall₂ (SameCode u ρ) es fs) :
    SameCode u ρ (.list (.word (chars "set") :: .word a :: es))
      (.list (.word (chars "set") :: .word b :: fs)) := by
  intro e₁ e₂ idx ls ha
  obtain ⟨k₁, k₂, h1, h2, h3, -⟩ := ha.refers hr
  have hspecial : chars "set" ∈ special := by simp [special]
  have hhead : headOf (.sym (chars "set")) = .set := rfl
  rw [compileExpr_special hspecial hhead, compileExpr_special hspecial hhead]
  cases h with
  | nil =>
    simp only [asts, Src.ast, compileCall, h1, h2, Option.bind_eq_bind, Option.bind_some, h3]
  | cons hx h =>
    have h4 := hx _ _ idx ls ha
    simp only [asts, Src.ast, compileCall, h1, h2, Option.bind_eq_bind, Option.bind_some, h3, h4]

lemma fn_congr {σ : Scope} {f : Text} (hσ : ∀ p ∈ σ, pyInt u p.1 = none ∧ pyInt u p.2 = none)
    (h : List.Forall₂ (SameCode u σ.reverse) es fs) :
    SameCode u ρ (.list (.word (chars ":") :: .word f :: .list (σ.map (.word ·.1)) :: es))
      (.list (.word (chars ":") :: .word f :: .list (σ.map (.word ·.2)) :: fs)) := by
  intro e₁ e₂ idx ls _
  have hspecial : chars ":" ∈ special := by simp [special]
  have hhead : headOf (.sym (chars ":")) = .fn := rfl
  have h1 := paramKeys_words (show ∀ t ∈ σ.map Prod.fst, pyInt u t = none by
    simpa using fun p q h => (hσ _ h).1)
  have h2 := paramKeys_words (show ∀ t ∈ σ.map Prod.snd, pyInt u t = none by
    simpa using fun p q h => (hσ _ h).2)
  simp only [List.map_map, Function.comp_def] at h1 h2
  have h3 := aligned_params hσ (fun i => (i : ℤ) - σ.length - 1) 0
  have h4 (ls : Labels) : compileSeq (asts u es) 0 (paramEnv (σ.map (Key.sym ·.1))) ls =
      compileSeq (asts u fs) 0 (paramEnv (σ.map (Key.sym ·.2))) ls := by
    rw [paramEnv, paramEnv, List.length_map, List.length_map]
    exact seq_congr h h3 0 ls
  rw [compileExpr_special hspecial hhead, compileExpr_special hspecial hhead]
  simp only [asts, compileCall, h1, h2, h4, Option.bind_eq_bind, Option.bind_some]

lemma let_congr (hp : Agree u .bindings ρ ps qs ρ') (h : List.Forall₂ (SameCode u ρ') es fs) :
    SameCode u ρ (.list (.word (chars "let") :: .list ps :: es))
      (.list (.word (chars "let") :: .list qs :: fs)) := by
  intro e₁ e₂ idx ls ha
  have hspecial : chars "let" ∈ special := by simp [special]
  have hhead : headOf (.sym (chars "let")) = .letE := rfl
  rw [compileExpr_special hspecial hhead,
    compileExpr_special hspecial hhead]
  cases h with
  | nil => rfl
  | cons hx h =>
    obtain ⟨hlen, hpairs⟩ := hp
    rw [asts, asts, asts, asts, Src.ast, Src.ast, compileCall, compileCall, compileLet, compileLet]
    rcases hpairs _ _ (idx + 1) ls ha with ⟨h1, h2⟩ | ⟨t, f₁, f₂, ls', h1, h2, h3⟩
    · rw [h1, h2]
      rfl
    · have h4 (n : ℕ) := seq_congr (.cons hx h) h3 (idx + n) ls'
      simp only [h1, h2, asts_length, hlen, Option.bind_eq_bind, Option.bind_some]
      rw [← asts, ← asts, h4]

/-- Sources that are the same but for names that are no numbers have the same code. -/
lemma Alpha.agree {k : Kind} (h : Alpha N k ρ xs ys ρ') (hN : ∀ t, N t → pyInt u t = none) :
    Agree u k ρ xs ys ρ' := by
  induction h with
  | @nil k ρ =>
    cases k with
    | exprs => exact .nil
    | bindings => exact ⟨rfl, fun e₁ e₂ idx ls ha => .inr ⟨[], e₁, e₂, ls, rfl, rfl, ha⟩⟩
  | word hr _ ih => exact .cons (fun e₁ e₂ idx ls ha => ha.word hr idx ls) ih
  | empty _ ih => exact .cons (fun _ _ _ _ _ => rfl) ih
  | @plain ρ h es fs xs ys hh _ _ ihe ih =>
    refine .cons (fun e₁ e₂ idx ls ha => ?_) ih
    simp only [Src.ast, asts, compileExpr]
    cases hk : keyOf (leaf u h) with
    | none => rfl
    | some k => exact call_congr (plain_headOf hh hk) _ ihe ha idx ls
  | @asm ρ es xs ys _ ih =>
    have hspecial : chars "asm" ∈ special := by simp [special]
    have hhead : headOf (.sym (chars "asm")) = .asm := rfl
    refine .cons (fun e₁ e₂ idx ls ha => ?_) ih
    rw [compileExpr_special hspecial hhead,
      compileExpr_special hspecial hhead]
    rcases es with _ | ⟨x, es⟩ <;> rfl
  | set hr _ _ ihe ih => exact .cons (set_congr hr ihe) ih
  | letE _ _ _ ihp ihe ih => exact .cons (let_congr ihp ihe) ih
  | fn hσ _ _ ihe ih =>
    exact .cons (fn_congr (fun p hp => ⟨hN _ (hσ p hp).1, hN _ (hσ p hp).2⟩) ihe) ih
  | @bind ρ ρ' a b e f ps qs ha hb _ _ ihe ihp =>
    refine ⟨congrArg (· + 1) ihp.1, fun e₁ e₂ idx ls hal => ?_⟩
    have h1 := leaf_of_none (hN a ha)
    have h2 := leaf_of_none (hN b hb)
    have h3 := Aligned.cons (u := u) (idx : ℤ) (hN a ha) (hN b hb) hal
    obtain ⟨hef, -⟩ := List.forall₂_cons.mp ihe
    simp only [asts, Src.ast, compilePairs, compilePair, h1, h2, keyOf, Option.bind_eq_bind,
      Option.bind_some, hef _ _ idx ls h3]
    cases compileExpr (f.ast u) idx ((.sym b, (idx : ℤ)) :: e₂) ls with
    | none => exact .inl ⟨rfl, rfl⟩
    | some r =>
      rcases ihp.2 _ _ (idx + 1) r.2 h3 with ⟨h4, h5⟩ | ⟨t, f₁, f₂, ls', h4, h5, h6⟩
      · exact .inl ⟨by simp [h4], by simp [h5]⟩
      · exact .inr ⟨r.1 ++ storeSlot idx ++ t, f₁, f₂, ls', by simp [h4], by simp [h5], h6⟩

/-! ### The names that are variables -/

/-- Each use of the name as an operand, where it is bound, loads its slot. -/
def Loads (u : Unicode) (t : Text) : Prop :=
  ∀ k idx env slot ls, keyOf (leaf u t) = some k → env.lookup k = some slot →
    compileExpr (leaf u t) idx env ls = some (loadSlot slot, ls)

/-- Sources that are the same but for names that they bind, all of them in `N`, have the same
code. -/
def Renamable (u : Unicode) (N : Text → Prop) : Prop :=
  ∀ s s' : Text, Alpha N .exprs [] (sources s) (sources s') [] → comp u s = comp u s'

lemma compileInt_ne_loadSlot (n slot : ℤ) : compileInt n ≠ loadSlot slot := by
  intro h
  have h1 := congrArg List.head? h
  rw [compileInt, loadSlot,
    show chars "xor r1d r1d r1d\n" = 120 :: chars "or r1d r1d r1d\n" from rfl,
    show chars "ldr r1d r19 " = 108 :: chars "dr r1d r19 " from rfl] at h1
  cases h1

lemma loads_iff (u : Unicode) (t : Text) : Loads u t ↔ pyInt u t = none := by
  constructor
  · intro h
    cases hn : pyInt u t with
    | none => rfl
    | some n =>
      have hl : leaf u t = .int n := by rw [leaf, hn]
      have h1 := h (.int n) 0 [(.int n, 1)] 1 [] (by rw [hl, keyOf]) (by simp)
      rw [hl, compileExpr] at h1
      exact absurd (Prod.mk.inj (Option.some.inj h1)).1 (compileInt_ne_loadSlot n 1)
  · intro h k idx env slot ls hk hslot
    rw [leaf_of_none h] at hk ⊢
    obtain rfl : Key.sym t = k := Option.some.inj hk
    rw [compileExpr, compileVar, hslot]
    rfl

/-- **The names** in `N` are variables if and only if none of them is a number. -/
theorem names_iff (u : Unicode) (N : Text → Prop) :
    ((∀ t, N t → Loads u t) ∧ Renamable u N) ↔ ∀ t, N t → pyInt u t = none := by
  refine ⟨fun h t ht => (loads_iff u t).mp (h.1 t ht), fun h => ⟨fun t ht =>
    (loads_iff u t).mpr (h t ht), fun s s' hs => ?_⟩⟩
  rw [comp, comp, tokenize_eq, tokenize_eq, compAst, compAst, seq_congr (hs.agree h) .nil]

/-- What begins with a letter -/
def Letter : Text → Prop
  | [] => False
  | c :: _ => (65 ≤ c ∧ c ≤ 90) ∨ (97 ≤ c ∧ c ≤ 122)

/-- A parameter `a` is compiled to the number ten. -/
theorem not_names : Alpha Letter .exprs [] (sources (chars "[: f [a] a]"))
      (sources (chars "[: f [x] x]")) [] ∧
    comp ⟨fun _ => false, fun _ => none⟩ (chars "[: f [a] a]") ≠
      comp ⟨fun _ => false, fun _ => none⟩ (chars "[: f [x] x]") := by
  refine ⟨?_, by decide +kernel⟩
  exact .fn (σ := [(chars "a", chars "x")]) (by simp [Letter, chars])
    (.word (.inl ⟨rfl, rfl⟩) .nil) .nil

end LispMachine.CompileNames
