import LispMachine.AsmMarks

/-!
The labels of the assembler, and the theorem about the whole of it.

Two labels are compared character by character in the text, up to its end. A reference at the end
of the text, which is what a missing operand becomes, is equal to every label.
-/

namespace LispMachine.AsmResolve

open LispMachine.Memory LispMachine.Asm LispMachine.AsmRef LispMachine.AsmScan
open LispMachine.AsmStep LispMachine.AsmCorrect LispMachine.AsmMarks LispMachine.Lib.Tokens

variable {code : List ℕ} {i j : ℕ} {t : Token} {ts us : List Token}

/-! ### Comparing labels -/

lemma lt_of_tokAt (h : tokAt code i ≠ []) : i < code.length := by
  by_contra hle
  rw [tokAt, List.drop_eq_nil_of_le (by omega)] at h
  exact h rfl

/-- A text that ends in a separator goes on after a character that is none. -/
lemma succ_lt (hc : Closed code) (h : i < code.length)
    (hw : whitespace (code.getD i 0) = false) : i + 1 < code.length := by
  by_contra hle
  have hlast : i = code.length - 1 := by omega
  have h1 := hc code[i] (by rw [List.getLast?_eq_getElem?, ← hlast, List.getElem?_eq_getElem h]; rfl)
  rw [List.getD_eq_getElem _ _ h, h1] at hw
  cases hw

lemma lblStreqLoop_spec {n : ℕ} (hc : Closed code) (hi : i < code.length) (hj : j < code.length)
    (hn : code.length ≤ n + i) :
    lblStreqLoop code n i j = decide (tokAt code i = tokAt code j) := by
  induction n generalizing i j with
  | zero => omega
  | succ n ih =>
    have hsucc := fun hwi hwj => ih (i := i + 1) (j := j + 1) (succ_lt hc hi hwi)
      (succ_lt hc hj hwj) (by omega)
    rw [lblStreqLoop, if_pos ⟨hi, hj⟩, tokAt_of_lt hi, tokAt_of_lt hj]
    generalize code.getD i 0 = x at hsucc ⊢
    generalize code.getD j 0 = y at hsucc ⊢
    cases hx : whitespace x with
    | true => cases hy : whitespace y <;> simp
    | false =>
      by_cases heq : x = y
      · subst heq
        rw [if_neg (by simp), if_neg (by simp), hsucc hx hx]
        simp [hx]
      · rw [if_neg (by simp), if_pos heq]
        cases whitespace y <;> simp [heq]

lemma lblStreqLoop_end {n : ℕ} (hi : code.length ≤ i) : lblStreqLoop code n i j = true := by
  cases n with
  | zero => rfl
  | succ n => rw [lblStreqLoop, if_neg (by omega)]

/-! ### Resolving -/

/-- `resolve` on tokens. -/
def resolveTokens (labels : List (Token × ℕ)) : List (Token × ℕ) → List ℕ → Option (List ℕ)
  | [], arr => some arr
  | ref :: refs, arr =>
    match labels.find? fun l => ref.1 = [] ∨ l.1 = ref.1 with
    | some l => resolveTokens labels refs (arr.modify ref.2 (· ||| l.2))
    | none => none

/-- The label that a reference finds. -/
lemma find_eq {lbls : List LblInfo} {ref : LblInfo} (hc : Closed code)
    (hl : ∀ l ∈ lbls, l.label < code.length)
    (hr : tokAt code ref.label ≠ [] ∨ ref.label = code.length) :
    (lbls.map (view code)).find? (fun l => (view code ref).1 = [] ∨ l.1 = (view code ref).1) =
      (lbls.find? (lblStreq code ref)).map (view code) := by
  induction lbls with
  | nil => rfl
  | cons l lbls ih =>
    have hl' := hl l (by simp)
    have heq : lblStreq code ref l =
        decide ((view code ref).1 = [] ∨ (view code l).1 = (view code ref).1) := by
      rw [lblStreq]
      rcases hr with h0 | hend
      · rw [lblStreqLoop_spec hc (lt_of_tokAt h0) hl' (by omega)]
        simp [view, h0, eq_comm]
      · rw [lblStreqLoop_end hend.ge]
        simp [view, hend, tokAt]
    rw [List.map_cons, List.find?_cons, List.find?_cons, heq, ih fun l h => hl l (by simp [h])]
    cases decide ((view code ref).1 = [] ∨ (view code l).1 = (view code ref).1) <;> rfl

lemma resolve_eq {lbls refs : List LblInfo} {arr : List ℕ} (hc : Closed code)
    (hl : ∀ l ∈ lbls, l.label < code.length)
    (hr : ∀ l ∈ refs, tokAt code l.label ≠ [] ∨ l.label = code.length) :
    resolve code lbls refs arr =
      resolveTokens (lbls.map (view code)) (refs.map (view code)) arr := by
  induction refs generalizing arr with
  | nil => rfl
  | cons ref refs ih =>
    rw [resolve, List.map_cons, resolveTokens, find_eq hc hl (hr ref (by simp))]
    cases lbls.find? (lblStreq code ref) with
    | none => rfl
    | some l => exact ih fun l hmem => hr l (by simp [hmem])

lemma modify_length {pre post : List ℕ} {w : ℕ} {f : ℕ → ℕ} :
    (pre ++ w :: post).modify pre.length f = pre ++ f w :: post := by
  induction pre with
  | nil => rfl
  | cons x pre ih => rw [List.cons_append, List.length_cons, List.modify_succ_cons, ih]; rfl

/-- Resolving the references to the words of the statements gives what the reference assembler
emits for these. -/
lemma resolveTokens_emit {labels more : List (Token × ℕ)} {ss : List Stmt} (pre : List ℕ)
    {post : List ℕ} (h : ∀ p ∈ refsOf ss pre.length, p.1 ≠ []) :
    resolveTokens labels (refsOf ss pre.length ++ more) (pre ++ wordsOf ss ++ post) =
      (emit labels ss).bind fun ws => resolveTokens labels more (pre ++ ws ++ post) := by
  induction ss generalizing pre with
  | nil => rfl
  | cons st ss ih =>
    -- the word of `st` joins those before it
    have hstep (w : ℕ) (hw : refsOf ss (pre.length + 1) ⊆ refsOf (st :: ss) pre.length) :
        resolveTokens labels (refsOf ss (pre.length + 1) ++ more)
          (pre ++ w :: wordsOf ss ++ post) =
        ((emit labels ss).map (w :: ·)).bind fun ws =>
          resolveTokens labels more (pre ++ ws ++ post) := by
      have h1 := ih (pre ++ [w]) (by simpa using fun a b hp => h (a, b) (hw hp))
      rw [List.length_append, List.length_singleton] at h1
      rw [Option.bind_map]
      simpa [Function.comp_def] using h1
    cases st with
    | data w => exact hstep w (List.Subset.refl _)
    | label t => exact ih pre h
    | instr op regs last =>
      cases last with
      | imm v => exact hstep _ (List.Subset.refl _)
      | reg q => exact hstep _ (List.Subset.refl _)
      | label t =>
        have ht : t ≠ [] := h (t, pre.length) (by simp [refsOf])
        rw [refsOf, wordsOf, emit, List.cons_append, resolveTokens, address]
        simp only [ht, false_or]
        cases labels.find? fun l => l.1 = t with
        | none => rfl
        | some l =>
          dsimp only
          rw [List.append_assoc, List.cons_append, modify_length, Option.map_some,
            Option.bind_some, ← List.cons_append, ← List.append_assoc]
          exact hstep _ (List.subset_cons_self _ _)

/-! ### The whole -/

/-- The labels that a statement refers to are among the tokens. -/
lemma first_refs {st : Stmt} (h : first t ts = .stmt st us) :
    us ⊆ ts ∧ ∀ a, ∀ p ∈ refsOf [st] a, p.1 ∈ ts := by
  unfold first at h
  split at h
  · cases h
    exact ⟨List.Subset.refl _, by simp [refsOf]⟩
  · split at h
    · cases h
      exact ⟨List.Subset.refl _, by simp [refsOf]⟩
    · unfold firstInstr at h
      split at h
      · cases h
      · split_ifs at h
        split at h
        · cases h
        · next u us' hdrop =>
          obtain ⟨rfl, rfl⟩ := First.stmt.inj h
          have hsub : u :: us' ⊆ ts := hdrop ▸ List.drop_subset _ _
          refine ⟨fun x hx => hsub (List.mem_cons_of_mem u hx), fun a p hp => ?_⟩
          generalize hlast : lastOperand _ u = last at hp
          cases last with
          | label tok =>
            obtain rfl := List.mem_singleton.mp hp
            exact lastOperand_label hlast ▸ hsub List.mem_cons_self
          | imm v => cases hp
          | reg q => cases hp

lemma readTokens_refs {m a : ℕ} : ∀ p ∈ refsOf (readTokens m ts).stmts a, p.1 ∈ ts := by
  induction m generalizing ts a with
  | zero => cases ts <;> simp [readTokens, refsOf]
  | succ m ih =>
    cases ts with
    | nil => simp [readTokens, refsOf]
    | cons t ts =>
      rw [readTokens]
      cases hf : first t ts with
      | failed => simp [refsOf]
      | short => simp [refsOf]
      | stmt st us =>
        obtain ⟨hsub, hmem⟩ := first_refs hf
        dsimp only [Reading.cons]
        rw [refsOf_cons]
        intro p hp
        rcases List.mem_append.mp hp with hp | hp
        · exact List.mem_cons_of_mem t (hmem _ p hp)
        · exact List.mem_cons_of_mem t (hsub (ih p hp))

lemma tokens_length_le (l : List ℕ) (h : Closed l) : (tokens whitespace l).length ≤ l.length := by
  induction hl : l.length using Nat.strong_induction_on generalizing l with
  | _ n ih =>
    subst hl
    rw [← tokens_dropWhile]
    have hdrop := (List.dropWhile_sublist whitespace (l := l)).length_le
    have hclosed : Closed (l.dropWhile whitespace) := by
      refine Closed.of_append (l := l.takeWhile whitespace) ?_
      rwa [List.takeWhile_append_dropWhile]
    by_cases h0 : l.dropWhile whitespace = []
    · simp [h0]
    · obtain ⟨tok, d, r, heq, h1, h2, h3⟩ := hclosed.exists_tok (clean_dropWhile l) h0
      rw [heq] at hdrop hclosed ⊢
      rw [tokens_tok h1 h2 h3, List.length_cons]
      rw [List.length_append, List.length_cons] at hdrop
      have := List.length_pos_iff.mpr h1
      have := ih r.length (by omega) r (Closed.of_append (l := tok ++ [d]) (by simpa using hclosed))
        rfl
      omega

/-- The assembler and its reference fail on the same texts and give the same words, and they go
through the same tokens, statement by statement. -/
def Agrees (code : List ℕ) : Prop :=
  compile code = assemble code ∧
    (compileHeads code).map (fun i => tokens whitespace (code.drop i)) = (reading code).left

instance : DecidablePred Agrees := fun _ => inferInstanceAs (Decidable (_ ∧ _))

/-- What the loop has collected, resolved. -/
lemma resolve_result {c : Comp} {r : Reading} (hc : Closed code)
    (h : Result code (compileInit code) r c) (hr : ∀ p ∈ refsOf r.stmts 0, p.1 ≠ []) :
    ∃ post a, (r.ending = .done → post = []) ∧ Asm.resolve code c.lbls c.lblRefs c.arr =
      (emit (layout r.stmts 0) r.stmts).bind fun ws =>
        resolveTokens (layout r.stmts 0) (if r.ending = .short then [([], a)] else [])
          (ws ++ post) := by
  obtain ⟨post, harr, hdone⟩ := h.arr
  obtain ⟨a, hrefs⟩ := h.refs
  have hlbls := h.lbls
  simp only [compileInit, List.nil_append, List.map_nil] at harr hlbls hrefs
  refine ⟨post, a, hdone, ?_⟩
  have hlt : ∀ l ∈ c.lbls, l.label < code.length := by
    intro l hl
    rcases h.lblPos l hl with h1 | h1
    · cases h1
    · by_contra hle
      rw [List.drop_eq_nil_of_le (by omega)] at h1
      exact h1 rfl
  have hpos : ∀ l ∈ c.lblRefs, tokAt code l.label ≠ [] ∨ l.label = code.length := by
    intro l hl
    rcases h.refPos l hl with h1 | h1
    · cases h1
    · exact h1
  rw [resolve_eq hc hlt hpos, hlbls, hrefs, harr]
  exact resolveTokens_emit [] hr

lemma resolveTokens_short {labels : List (Token × ℕ)} {a : ℕ} {arr : List ℕ} :
    resolveTokens labels [([], a)] arr = none ↔ labels = [] := by
  cases labels <;> simp [resolveTokens]

/-- The texts on which the assembler agrees with its reference. -/
lemma agrees_iff (hc : Closed code) (h0 : code ≠ []) :
    Agrees code ↔ ¬ BareFollowed (reading code) ∧ ¬ ShortAccepted (reading code) := by
  have hplace : Place code (compileInit code).idx (tokens whitespace code)
      (code.dropWhile whitespace) := by
    have hat : At code 0 code := ⟨Nat.zero_le _, rfl⟩
    exact ⟨(ignoreWhitespace_spec hat).1, clean_dropWhile code, tokens_dropWhile code⟩
  have hlen := Nat.lt_succ_of_le (tokens_length_le code hc)
  have hlbls : ∀ l ∈ (compileInit code).lbls,
      (tokens whitespace code).length < (tokens whitespace (code.drop l.label)).length := by
    simp [compileInit]
  by_cases hbare : BareFollowed (reading code)
  · refine iff_of_false (fun h => ?_) fun h => h.1 hbare
    exact heads_ne hc hplace hlen le_rfl hbare hlbls h.2
  · obtain ⟨hheads, hloop⟩ := compileLoop_spec hc hplace hlen le_rfl hbare hlbls
    have hrefs : ∀ p ∈ refsOf (reading code).stmts 0, p.1 ≠ [] := fun p hp =>
      ne_nil_of_mem (readTokens_refs p hp)
    have hagrees : Agrees code ↔ compile code = assemble code := and_iff_left hheads
    rw [hagrees, compile, if_neg (mt List.length_eq_zero_iff.mp h0), assemble, ShortAccepted]
    change ((compileLoop code (code.length + 1) (compileInit code)).bind _ = _) ↔ _
    rcases hloop with ⟨hfail, hnone⟩ | ⟨hfail, c, hsome, hres⟩
    · rw [hnone]
      have hend : (reading code).ending = .failed := hfail
      simp [hend, hbare]
    · obtain ⟨post, a, hdone, heq⟩ := resolve_result (r := reading code) hc hres hrefs
      have hend : (reading code).ending ≠ .failed := hfail
      rw [hsome, Option.bind_some, heq]
      cases hq : (reading code).ending with
      | failed => exact absurd hq hend
      | done =>
        rw [hdone hq]
        cases emit (layout (reading code).stmts 0) (reading code).stmts <;>
          simp [resolveTokens, hbare]
      | short =>
        dsimp only
        cases emit (layout (reading code).stmts 0) (reading code).stmts with
        | none => simp [hbare]
        | some ws => simp [hbare, resolveTokens_short]

lemma closed_concat (r : List ℕ) {d : ℕ} (hd : whitespace d = true) : Closed (r ++ [d]) := by
  intro c hlast
  rw [List.getLast?_concat] at hlast
  exact Option.some.inj hlast ▸ hd

/-- **The assembler** agrees with its reference on a text that ends in a separator if and only if
there is no token after a last operand that is `r` and no more, and no operand is missing at the
end of a text that defines all its labels, and some. -/
theorem compile_agrees_iff (r : List ℕ) (d : ℕ) (hd : whitespace d = true) :
    Agrees (r ++ [d]) ↔
      ¬ BareFollowed (reading (r ++ [d])) ∧ ¬ ShortAccepted (reading (r ++ [d])) :=
  agrees_iff (closed_concat r hd) (by simp)

/-- An operand `r` is not a label that is followed by a token: the token is lost. A missing operand
is taken for the first label. -/
theorem compile_not_agrees :
    ¬ Agrees (chars "r exc r 12 13 ") ∧ ¬ Agrees (chars "x ads r1 r2 ") := by
  decide +kernel

theorem compile_agrees_loop : Agrees (chars "loop ads r1 r2 -3f jnc r1 r2 loop r " ++ [10]) :=
  (compile_agrees_iff _ 10 (by decide)).mpr (by decide +kernel)

end LispMachine.AsmResolve
