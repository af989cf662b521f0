import LispMachine.AsmResolve

/-!
Which definition a label operand takes, in any text.

The names are compared in the text, up to separators or to its end. Where one of two names runs up
to the end of the text, it passes for any name that it begins; a missing operand is the empty name
there.
-/

namespace LispMachine.AsmNames

open LispMachine.Memory LispMachine.Asm LispMachine.AsmRef LispMachine.AsmCorrect
open LispMachine.AsmMarks LispMachine.AsmResolve

variable {code : List ℕ} {i j n : ℕ} {c : Comp} {r : LblInfo} {lbls : List LblInfo}

/-! ### Comparing names -/

/-- The token at an index runs up to the end of the text. -/
def AtEnd (code : List ℕ) (i : ℕ) : Prop := code.length ≤ stop code i

instance : Decidable (AtEnd code i) := inferInstanceAs (Decidable (_ ≤ _))

/-- The names at two indices pass for equal. -/
def Passes (code : List ℕ) (i j : ℕ) : Prop :=
  tokAt code i = tokAt code j ∨ (AtEnd code i ∧ tokAt code i <+: tokAt code j) ∨
    (AtEnd code j ∧ tokAt code j <+: tokAt code i)

instance : Decidable (Passes code i j) := inferInstanceAs (Decidable (_ ∨ _))

lemma passes_of_le_left (h : code.length ≤ i) : Passes code i j := by
  have h1 := tokAt_of_le h
  exact .inr (.inl ⟨by unfold AtEnd stop; omega, by rw [h1]; exact List.nil_prefix⟩)

lemma passes_of_le_right (h : code.length ≤ j) : Passes code i j := by
  have h1 := tokAt_of_le h
  exact .inr (.inr ⟨by unfold AtEnd stop; omega, by rw [h1]; exact List.nil_prefix⟩)

lemma not_atEnd_of_sep (h : i < code.length) (hw : whitespace (code.getD i 0) = true) :
    tokAt code i = [] ∧ ¬ AtEnd code i := by
  have h1 : tokAt code i = [] := by rw [tokAt_of_lt h, if_pos hw]
  rw [AtEnd, stop, h1, List.length_nil]
  exact ⟨rfl, by omega⟩

lemma tokAt_of_solid (h : i < code.length) (hw : ¬ whitespace (code.getD i 0) = true) :
    tokAt code i = code.getD i 0 :: tokAt code (i + 1) ∧
      (AtEnd code i ↔ AtEnd code (i + 1)) := by
  refine ⟨by rw [tokAt_of_lt h, if_neg hw], ?_⟩
  rw [AtEnd, stop_eq_of_solid h (by simpa using hw)]
  rfl

/-- **The comparison** of two names. -/
lemma lblStreqLoop_iff (hn : code.length ≤ n + i ∨ code.length ≤ n + j) :
    lblStreqLoop code n i j = true ↔ Passes code i j := by
  induction n generalizing i j with
  | zero =>
    refine iff_of_true rfl ?_
    rcases hn with h | h
    · exact passes_of_le_left (by omega)
    · exact passes_of_le_right (by omega)
  | succ n ih =>
    rw [lblStreqLoop]
    by_cases hlt : i < code.length ∧ j < code.length
    · rw [if_pos hlt]
      obtain ⟨hi, hj⟩ := hlt
      by_cases hw : whitespace (code.getD i 0) = true
      · -- the first name ends here
        obtain ⟨h1, h2⟩ := not_atEnd_of_sep hi hw
        rw [if_pos hw, Passes, h1]
        by_cases hw' : whitespace (code.getD j 0) = true
        · exact iff_of_true hw' (.inl (not_atEnd_of_sep hj hw').1.symm)
        · rw [(tokAt_of_solid hj hw').1]
          exact iff_of_false hw' (by simp [h2])
      · obtain ⟨h1, h2⟩ := tokAt_of_solid hi hw
        rw [if_neg hw]
        by_cases hw' : whitespace (code.getD j 0) = true
        · -- the second name ends here
          obtain ⟨h3, h4⟩ := not_atEnd_of_sep hj hw'
          have hne : code.getD i 0 ≠ code.getD j 0 := fun heq => hw (heq ▸ hw')
          rw [if_pos hne, Passes, h1, h3]
          exact iff_of_false Bool.false_ne_true (by simp [h4])
        · obtain ⟨h3, h4⟩ := tokAt_of_solid hj hw'
          by_cases heq : code.getD i 0 = code.getD j 0
          · rw [if_neg (not_not.mpr heq), ih (by omega), Passes, Passes, h1, h3, heq, h2, h4]
            simp [List.cons_prefix_cons]
          · rw [if_pos heq, Passes, h1, h3]
            generalize code.getD i 0 = x at heq
            generalize code.getD j 0 = y at heq
            exact iff_of_false Bool.false_ne_true
              (by simp [List.cons_prefix_cons, heq, Ne.symm heq])
    · rw [if_neg hlt]
      refine iff_of_true rfl ?_
      rcases Nat.lt_or_ge i code.length with hi | hi
      · exact passes_of_le_right (by omega)
      · exact passes_of_le_left hi

lemma lblStreq_iff {l : LblInfo} : lblStreq code r l = true ↔ Passes code r.label l.label :=
  lblStreqLoop_iff (.inl (by omega))

/-! ### Addresses -/

/-- The address that `compile` takes for a label operand. -/
def taken (code : List ℕ) (lbls : List LblInfo) (ref : LblInfo) : Option ℕ :=
  (lbls.find? (lblStreq code ref)).map LblInfo.addr

/-- The address of the first definition of a label operand's whole name, if it is there. -/
def named (code : List ℕ) (lbls : List LblInfo) (ref : LblInfo) : Option ℕ :=
  if tokAt code ref.label = [] then none
  else (lbls.find? fun l => tokAt code l.label = tokAt code ref.label).map LblInfo.addr

/-- The words, with the addresses of the label operands. -/
def patch (arr : List ℕ) : List (LblInfo × ℕ) → List ℕ
  | [] => arr
  | p :: ps => patch (arr.modify p.1.addr (· ||| p.2)) ps

/-- `compile` with the addresses from `look`. -/
def compileWith (look : List LblInfo → LblInfo → Option ℕ) (code : List ℕ) : Option (List ℕ) :=
  if code.length = 0 then none
  else
    (compileLoop code (code.length + 1) (compileInit code)).bind fun c =>
      (c.lblRefs.mapM (look c.lbls)).map fun as => patch c.arr (c.lblRefs.zip as)

/-- The resolution of the operands takes all the addresses first. -/
lemma resolve_eq_patch {refs : List LblInfo} {arr : List ℕ} : Asm.resolve code lbls refs arr =
    (refs.mapM (taken code lbls)).map fun as => patch arr (refs.zip as) := by
  induction refs generalizing arr with
  | nil => rfl
  | cons ref refs ih =>
    rw [Asm.resolve, List.mapM_cons, taken]
    cases lbls.find? (lblStreq code ref) with
    | none => rfl
    | some l =>
      dsimp only
      rw [ih]
      cases refs.mapM (taken code lbls) <;> rfl

lemma compile_eq_taken (code : List ℕ) : compile code = compileWith (taken code) code := by
  rw [compile, compileWith]
  simp only [resolve_eq_patch]

lemma mapM_eq_none_iff {α β : Type*} {f : α → Option β} {l : List α} :
    l.mapM f = none ↔ ∃ x ∈ l, f x = none := by
  induction l with
  | nil => simp
  | cons x l ih =>
    rw [List.mapM_cons]
    cases hf : f x with
    | none => simp [hf]
    | some a =>
      cases hl : l.mapM f with
      | none => simp [hf, ← ih, hl]
      | some as => simp [hf, ← ih, hl]

/-- Two ways to look up give the same list if one fails, and the other one then does as well, or if
they agree. -/
lemma mapM_eq_iff {α β : Type*} {f g : α → Option β} {l : List α}
    (h : ∀ x ∈ l, f x = none → g x = none) :
    l.mapM f = l.mapM g ↔ (∃ x ∈ l, f x = none) ∨ ∀ x ∈ l, f x = g x := by
  induction l with
  | nil => simp
  | cons x l ih =>
    obtain ⟨h1, h2⟩ := List.forall_mem_cons.mp h
    have h3 := ih h2
    have hx : f x = none → g x = none := h1
    rw [List.mapM_cons, List.mapM_cons, List.forall_mem_cons]
    have hex : (∃ y ∈ x :: l, f y = none) ↔ f x = none ∨ ∃ y ∈ l, f y = none := by simp
    rw [hex]
    cases hf : f x with
    | none => simp [hx hf]
    | some a =>
      have hnone : (∃ y ∈ l, f y = none) ↔ l.mapM f = none := mapM_eq_none_iff.symm
      rw [hnone] at h3 ⊢
      cases hl : l.mapM f with
      | none =>
        have hlg : l.mapM g = none := by
          obtain ⟨y, hy, hfy⟩ := mapM_eq_none_iff.mp hl
          exact mapM_eq_none_iff.mpr ⟨y, hy, h2 y hy hfy⟩
        cases hg : g x <;> simp [hlg]
      | some as =>
        rw [hl] at h3
        have h4 : some as = l.mapM g ↔ ∀ y ∈ l, f y = g y := by simpa using h3
        rw [← h4]
        cases hg : g x <;> cases hlg : l.mapM g <;> simp

/-- An operand takes the definition of its whole name: it is there and has one, and if it runs up to
the end of the text, the first definition that begins with it has the same address. -/
def Whole (code : List ℕ) (lbls : List LblInfo) (ref : LblInfo) : Prop :=
  tokAt code ref.label ≠ [] ∧
    ∃ l, (lbls.find? fun l => tokAt code l.label = tokAt code ref.label) = some l ∧
      (AtEnd code ref.label → ∃ l', (lbls.find? fun l => tokAt code ref.label <+:
        tokAt code l.label) = some l' ∧ l'.addr = l.addr)

/-- A definition stands before the end of the text that another token runs up to. -/
lemma not_atEnd_of_marks (hm : Marks code c) {l : LblInfo} (hl : l ∈ c.lbls) (hr : r ∈ c.lblRefs)
    (h0 : tokAt code r.label ≠ []) (hend : AtEnd code r.label) : ¬ AtEnd code l.label := by
  intro hend'
  have h1 := lt_of_tokAt h0
  have h2 := (hm.lbls_lt l hl).1
  rcases hm.apart l hl r hr with h3 | h3
  · exact absurd (hend'.trans h3) (not_le.mpr h1)
  · exact absurd (hend.trans h3) (not_le.mpr h2)

lemma find?_congr_mem {α : Type*} {p q : α → Bool} {l : List α} (h : ∀ a ∈ l, p a = q a) :
    l.find? p = l.find? q := by
  induction l with
  | nil => rfl
  | cons a l ih =>
    obtain ⟨h1, h2⟩ := List.forall_mem_cons.mp h
    rw [List.find?_cons, List.find?_cons, h1, ih h2]

/-- An operand gets the address of its name just if it takes the definition of its whole name. -/
lemma taken_eq_named_iff (hm : Marks code c) (hr : r ∈ c.lblRefs)
    (hsome : taken code c.lbls r ≠ none) :
    taken code c.lbls r = named code c.lbls r ↔ Whole code c.lbls r := by
  rw [named, Whole]
  by_cases h0 : tokAt code r.label = []
  · simp [h0, hsome]
  rw [if_neg h0]
  by_cases hend : AtEnd code r.label
  · have hpass : ∀ l ∈ c.lbls, lblStreq code r l =
        decide (tokAt code r.label <+: tokAt code l.label) := by
      intro l hl
      have hl' := not_atEnd_of_marks hm hl hr h0 hend
      rw [Bool.eq_iff_iff, lblStreq_iff, decide_eq_true_iff, Passes]
      simp only [hend, hl', true_and, false_and, or_false]
      exact or_iff_right_of_imp fun heq => heq ▸ List.prefix_rfl
    have htaken : taken code c.lbls r = (c.lbls.find? fun l => tokAt code r.label <+:
        tokAt code l.label).map LblInfo.addr := by
      rw [taken, find?_congr_mem hpass]
    rw [htaken] at hsome ⊢
    obtain ⟨l', hl'⟩ := Option.ne_none_iff_exists'.mp (mt Option.map_eq_none_iff.mpr hsome)
    rw [hl', Option.map_some]
    constructor
    · intro heq
      obtain ⟨l, hl, haddr⟩ := Option.map_eq_some_iff.mp heq.symm
      exact ⟨h0, l, hl, fun _ => ⟨l', rfl, haddr.symm⟩⟩
    · rintro ⟨-, l, hl, hfirst⟩
      obtain ⟨l'', h1, h2⟩ := hfirst hend
      obtain rfl := Option.some.inj h1
      rw [hl, Option.map_some, h2]
  · have hpass : ∀ l, lblStreq code r l = true ↔ tokAt code l.label = tokAt code r.label ∨
        (AtEnd code l.label ∧ tokAt code l.label <+: tokAt code r.label) := by
      intro l
      rw [lblStreq_iff, Passes, eq_comm]
      simp only [hend, false_and, false_or]
    constructor
    · intro heq
      rw [heq] at hsome
      obtain ⟨l, hl⟩ := Option.ne_none_iff_exists'.mp (mt Option.map_eq_none_iff.mpr hsome)
      exact ⟨h0, l, hl, fun h => absurd h hend⟩
    · rintro ⟨-, l, hl, -⟩
      -- the definitions before it do not run up to the end
      rw [taken, hl]
      refine congrArg _ ?_
      rw [List.find?_eq_some_iff_append] at hl ⊢
      obtain ⟨heq, as, bs, hsplit, has⟩ := hl
      refine ⟨(hpass l).mpr (.inl (by simpa using heq)), as, bs, hsplit, fun a ha => ?_⟩
      have horder := hm.order
      rw [hsplit, List.pairwise_append] at horder
      have hbefore := horder.2.2 a ha l List.mem_cons_self
      have hlt := (hm.lbls_lt l (by simp [hsplit])).1
      rw [Bool.not_eq_true', ← Bool.not_eq_true, hpass]
      rintro (h1 | ⟨h1, -⟩)
      · simpa [h1] using has a ha
      · exact absurd (h1.trans hbefore) (not_le.mpr hlt)

/-- The operands of the text get the addresses of their names, or there is one that has none. -/
def ByName (code : List ℕ) : Prop :=
  ∀ c, compileLoop code (code.length + 1) (compileInit code) = some c →
    c.lblRefs.mapM (taken code c.lbls) = c.lblRefs.mapM (named code c.lbls)

lemma ByName.compile_eq (h : ByName code) : compile code = compileWith (named code) code := by
  rw [compile_eq_taken, compileWith, compileWith]
  cases hc : compileLoop code (code.length + 1) (compileInit code) with
  | none => rfl
  | some c => rw [Option.bind_some, Option.bind_some, h c hc]

/-- **Labels are resolved by whole names** just if an operand passes for no definition at all, or
all of them take the definitions of their whole names. -/
theorem byName_iff (code : List ℕ) : compile code = compileWith (taken code) code ∧
    (ByName code → compile code = compileWith (named code) code) ∧
    (ByName code ↔ ∀ c, compileLoop code (code.length + 1) (compileInit code) = some c →
      (∃ r ∈ c.lblRefs, ∀ l ∈ c.lbls, ¬ Passes code r.label l.label) ∨
        ∀ r ∈ c.lblRefs, Whole code c.lbls r) := by
  refine ⟨compile_eq_taken code, ByName.compile_eq, forall₂_congr fun c hc => ?_⟩
  have hm := marks_init.run hc
  have hnone : ∀ r, taken code c.lbls r = none ↔ ∀ l ∈ c.lbls, ¬ Passes code r.label l.label := by
    intro r
    rw [taken, Option.map_eq_none_iff, List.find?_eq_none]
    exact forall₂_congr fun l _ => lblStreq_iff.not
  have hfail : ∀ r ∈ c.lblRefs, taken code c.lbls r = none → named code c.lbls r = none := by
    intro r _ h
    have hnot := (hnone r).mp h
    rw [named]
    split_ifs
    · rfl
    · rw [Option.map_eq_none_iff, List.find?_eq_none]
      exact fun l hl heq => hnot l hl (.inl (by simpa [eq_comm] using heq))
  rw [mapM_eq_iff hfail]
  simp only [hnone]
  by_cases hex : ∃ r ∈ c.lblRefs, ∀ l ∈ c.lbls, ¬ Passes code r.label l.label
  · exact iff_of_true (.inl hex) (.inl hex)
  · rw [or_iff_right hex, or_iff_right hex]
    refine forall₂_congr fun r hr => taken_eq_named_iff hm hr ?_
    rw [ne_eq, hnone]
    exact fun h => hex ⟨r, hr, h⟩

/-- A name at the end of the text passes for a longer one, a definition there for the operand that it
begins, and a missing operand for any name. -/
theorem not_byName :
    (compile (chars "xy jnc r0 r0 x") ≠ none ∧
      compileWith (named (chars "xy jnc r0 r0 x")) (chars "xy jnc r0 r0 x") = none) ∧
    (compile (chars "jnc r0 r0 xy x") ≠ none ∧
      compileWith (named (chars "jnc r0 r0 xy x")) (chars "jnc r0 r0 xy x") = none) ∧
    compile (chars "x jnc r0 r0 ") ≠ none ∧
      compileWith (named (chars "x jnc r0 r0 ")) (chars "x jnc r0 r0 ") = none := by
  decide +kernel

end LispMachine.AsmNames
