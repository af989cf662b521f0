import LispMachine.AsmCorrect

/-!
Where the loop of the assembler is in a text that may end within a token.

Each function of the scanner moves the index forward or leaves it. A statement begins at a token, or
at the end of the text, and takes one character at least. The places of labels and of references to
them are those of different tokens, one after the other.
-/

namespace LispMachine.AsmMarks

open LispMachine.Memory LispMachine.Asm LispMachine.AsmCorrect

variable {code : List ℕ} {i j k n : ℕ}

/-! ### The scanner -/

lemma le_skip {p : ℕ → Bool} : i ≤ skip code p n i := by
  induction n generalizing i with
  | zero => exact le_rfl
  | succ n ih =>
    rw [skip]
    split_ifs
    · exact (Nat.le_succ i).trans ih
    · exact le_rfl

/-- The loop ends at a character that has not the property, or at the end. -/
lemma skip_stops {p : ℕ → Bool} (hn : code.length ≤ n + i) :
    code.length ≤ skip code p n i ∨ p (code.getD (skip code p n i) 0) = false := by
  induction n generalizing i with
  | zero => exact .inl (by rw [skip]; omega)
  | succ n ih =>
    rw [skip]
    split_ifs with h
    · exact ih (by omega)
    · rcases Nat.lt_or_ge i code.length with hlt | hge
      · exact .inr (by simpa [hlt] using h)
      · exact .inl hge

/-- No separator is next. -/
def Ready (code : List ℕ) (i : ℕ) : Prop := code.length ≤ i ∨ whitespace (code.getD i 0) = false

lemma ready_ignoreWhitespace : Ready code (ignoreWhitespace code i) := skip_stops (by omega)

lemma expectWhitespace_le {e : Bool} (h : expectWhitespace code i = (e, j)) :
    i ≤ j ∧ (e = false → Ready code j) := by
  rw [expectWhitespace] at h
  split_ifs at h
  · obtain ⟨rfl, rfl⟩ := Prod.mk.inj h
    exact ⟨le_rfl, by simp⟩
  · obtain ⟨rfl, rfl⟩ := Prod.mk.inj h
    exact ⟨le_skip, fun _ => ready_ignoreWhitespace⟩

lemma expectWhitespaceOrEnd_le {e : Bool} (h : expectWhitespaceOrEnd code i = (e, j)) :
    i ≤ j ∧ (e = false → Ready code j) := by
  rw [expectWhitespaceOrEnd] at h
  cases hw : expectWhitespace code i with
  | mk ws k =>
    rw [hw] at h
    obtain ⟨he, rfl⟩ := Prod.mk.inj h
    obtain ⟨h1, h2⟩ := expectWhitespace_le hw
    refine ⟨h1, fun h0 => ?_⟩
    subst h0
    cases ws with
    | false => exact h2 rfl
    | true => exact .inl (by simpa using he)

lemma matchStr_eq {str : List ℕ} (h : matchStr code str i = some j) : j = i + str.length := by
  induction str generalizing i with
  | nil => exact (Option.some.inj h).symm
  | cons c str ih =>
    rw [matchStr] at h
    split_ifs at h
    rw [ih h, List.length_cons]
    omega

lemma expectStr_le {e : Bool} {str : List ℕ} (h : expectStr code i str = (e, j)) : i ≤ j := by
  rw [expectStr] at h
  cases hm : matchStr code str i with
  | none =>
    rw [hm] at h
    exact (Prod.mk.inj h).2.le
  | some k =>
    rw [hm] at h
    obtain ⟨-, rfl⟩ := Prod.mk.inj h
    rw [matchStr_eq hm]
    omega

lemma hexLoop_le {maxVal res v : ℕ} (h : hexLoop code maxVal n i res = some (j, v)) : i ≤ j := by
  induction n generalizing i res with
  | zero => exact (Prod.mk.inj (Option.some.inj h)).1.le
  | succ n ih =>
    rw [hexLoop] at h
    split_ifs at h
    · cases hd : hexDigit (code.getD i 0) with
      | none =>
        rw [hd] at h
        exact (Prod.mk.inj (Option.some.inj h)).1.le
      | some d =>
        rw [hd] at h
        dsimp only at h
        split_ifs at h
        exact (Nat.le_succ i).trans (ih h)
    · exact (Prod.mk.inj (Option.some.inj h)).1.le

lemma expectHexFromStr_le {e : Bool} {maxVal v : ℕ}
    (h : expectHexFromStr code i maxVal = (e, j, v)) : i ≤ j ∧ (e = false → i < j) := by
  rw [expectHexFromStr] at h
  cases hl : hexLoop code maxVal 16 i 0 with
  | none =>
    rw [hl] at h
    obtain ⟨rfl, h1⟩ := Prod.mk.inj h
    exact ⟨(Prod.mk.inj h1).1.le, by simp⟩
  | some p =>
    obtain ⟨k, w⟩ := p
    rw [hl] at h
    have h0 := hexLoop_le hl
    dsimp only at h
    split_ifs at h with heq
    · obtain ⟨rfl, h1⟩ := Prod.mk.inj h
      exact ⟨(Prod.mk.inj h1).1.le, by simp⟩
    · obtain ⟨rfl, h1⟩ := Prod.mk.inj h
      obtain rfl := (Prod.mk.inj h1).1
      exact ⟨h0, fun _ => by omega⟩

lemma matchName_eq {name : List ℕ} (h : matchName code name i = .yes j) : j = i + name.length := by
  induction name generalizing i with
  | nil => exact (Match.yes.inj h).symm
  | cons c name ih =>
    rw [matchName] at h
    split_ifs at h
    rw [ih h, List.length_cons]
    omega

lemma matchOpcodeLoop_lt {ds : List OpData} {op op' : ℕ} (hds : ∀ d ∈ ds, d.name ≠ [])
    (h : matchOpcodeLoop code i ds op = some (j, op')) : i < j := by
  induction ds generalizing op with
  | nil => cases h
  | cons d ds ih =>
    rw [matchOpcodeLoop] at h
    cases hm : matchName code d.name i with
    | yes k =>
      rw [hm] at h
      obtain ⟨rfl, -⟩ := Prod.mk.inj (Option.some.inj h)
      have := List.length_pos_iff.mpr (hds d List.mem_cons_self)
      rw [matchName_eq hm]
      omega
    | no =>
      rw [hm] at h
      exact ih (fun d hd => hds d (List.mem_cons_of_mem _ hd)) h
    | ended =>
      rw [hm] at h
      cases h

lemma matchOpcode_le {e : Bool} {op : ℕ} (h : matchOpcode code i = (e, j, op)) :
    i ≤ j ∧ (e = false → i < j) := by
  rw [matchOpcode] at h
  cases hm : matchOpcodeLoop code i instructions 0 with
  | none =>
    rw [hm] at h
    obtain ⟨rfl, h1⟩ := Prod.mk.inj h
    exact ⟨(Prod.mk.inj h1).1.le, by simp⟩
  | some p =>
    obtain ⟨k, op'⟩ := p
    rw [hm] at h
    obtain ⟨rfl, h1⟩ := Prod.mk.inj h
    obtain rfl := (Prod.mk.inj h1).1
    have := matchOpcodeLoop_lt (by decide) hm
    exact ⟨by omega, fun _ => this⟩

/-! ### Tokens -/

lemma tokAt_of_lt (h : i < code.length) : tokAt code i =
    if whitespace (code.getD i 0) then [] else code.getD i 0 :: tokAt code (i + 1) := by
  rw [tokAt, tokAt, List.drop_eq_getElem_cons h, List.takeWhile_cons,
    List.getD_eq_getElem _ _ h]
  cases whitespace code[i] <;> rfl

lemma tokAt_of_le (h : code.length ≤ i) : tokAt code i = [] := by
  rw [tokAt, List.drop_eq_nil_of_le h]
  rfl

/-- Where the token at an index ends. -/
def stop (code : List ℕ) (i : ℕ) : ℕ := i + (tokAt code i).length

lemma stop_eq_of_solid (h : i < code.length) (hs : whitespace (code.getD i 0) = false) :
    stop code i = stop code (i + 1) := by
  rw [stop, stop, tokAt_of_lt h, hs, if_neg (by simp), List.length_cons]
  omega

lemma solid_of_lt_stop (hi : i ≤ k) (hk : k < stop code i) :
    k < code.length ∧ whitespace (code.getD k 0) = false := by
  induction hd : k - i generalizing i with
  | zero =>
    obtain rfl : k = i := by omega
    have hlt : k < code.length := by
      by_contra hge
      rw [stop, tokAt_of_le (by omega)] at hk
      simp at hk
    refine ⟨hlt, ?_⟩
    by_contra hw
    rw [stop, tokAt_of_lt hlt, if_pos (by simpa using hw)] at hk
    simp at hk
  | succ d ih =>
    have hlt : i < code.length := by
      by_contra hge
      rw [stop, tokAt_of_le (by omega), List.length_nil] at hk
      omega
    have hw : whitespace (code.getD i 0) = false := by
      by_contra hw
      rw [stop, tokAt_of_lt hlt, if_pos (by simpa using hw), List.length_nil] at hk
      omega
    exact ih (by omega) (stop_eq_of_solid hlt hw ▸ hk) (by omega)

/-- A scan that begins within the token leaves it. -/
lemma stop_le_ignore (hk : i ≤ k) : stop code i ≤ ignoreNonWhitespace code k := by
  by_contra hlt
  obtain ⟨h1, h2⟩ := solid_of_lt_stop (hk.trans le_skip) (not_le.mp hlt)
  rcases @skip_stops code k code.length (fun ch => !whitespace ch) (by omega) with h3 | h3
  · exact absurd h1 (not_lt.mpr h3)
  · rw [h2] at h3
    cases h3

lemma lt_stop (h : Ready code i) (hlt : i < code.length) : i < stop code i := by
  rw [stop, tokAt_of_lt hlt, if_neg (by simpa [hlt] using h.resolve_left (not_le.mpr hlt)),
    List.length_cons]
  omega

/-! ### Statements -/

lemma compileArgs_le {m idx instr k idx' instr' k' : ℕ} (hr : Ready code idx)
    (h : compileArgs code m idx instr k = some (idx', instr', k')) :
    idx ≤ idx' ∧ Ready code idx' := by
  induction m generalizing idx instr k with
  | zero =>
    obtain ⟨rfl, -⟩ := Prod.mk.inj (Option.some.inj h)
    exact ⟨le_rfl, hr⟩
  | succ m ih =>
    rw [compileArgs] at h
    obtain ⟨e₁, i₁, h₁⟩ : ∃ e₁ i₁, expectStr code idx regDes = (e₁, i₁) := ⟨_, _, rfl⟩
    obtain ⟨e₂, i₂, v, h₂⟩ : ∃ e₂ i₂ v, expectHexFromStr code i₁ (numRegs - 1) = (e₂, i₂, v) :=
      ⟨_, _, _, rfl⟩
    obtain ⟨e₃, i₃, h₃⟩ : ∃ e₃ i₃, expectWhitespace code i₂ = (e₃, i₃) := ⟨_, _, rfl⟩
    rw [h₁] at h
    dsimp only at h
    rw [h₂] at h
    dsimp only at h
    rw [h₃] at h
    dsimp only at h
    split_ifs at h with he₁ he₂ he₃
    obtain ⟨h4, h5⟩ := expectWhitespace_le h₃
    obtain ⟨h6, h7⟩ := ih (h5 (by simpa using he₃)) h
    have h8 := expectStr_le h₁
    have h9 := (expectHexFromStr_le h₂).1
    exact ⟨by omega, h7⟩

lemma compileLast_le {m idx instr k idx' instr' : ℕ} {ref : Option ℕ}
    (h : compileLast code m idx instr k = (idx', instr', ref)) :
    idx ≤ idx' ∧ ∀ l ∈ ref, l = idx ∧ stop code l ≤ idx' := by
  rw [compileLast] at h
  obtain ⟨e₁, i₁, h₁⟩ : ∃ e₁ i₁, expectStr code idx negSgn = (e₁, i₁) := ⟨_, _, rfl⟩
  obtain ⟨e₂, i₂, v, h₂⟩ : ∃ e₂ i₂ v, expectHexFromStr code i₁ (getFlxOpMask m >>> 1) =
    (e₂, i₂, v) := ⟨_, _, _, rfl⟩
  obtain ⟨e₃, i₃, h₃⟩ : ∃ e₃ i₃, expectWhitespaceOrEnd code i₂ = (e₃, i₃) := ⟨_, _, rfl⟩
  obtain ⟨e₄, i₄, h₄⟩ : ∃ e₄ i₄, expectStr code idx regDes = (e₄, i₄) := ⟨_, _, rfl⟩
  obtain ⟨e₅, i₅, w, h₅⟩ : ∃ e₅ i₅ w, expectHexFromStr code i₄ (numRegs - 1) = (e₅, i₅, w) :=
    ⟨_, _, _, rfl⟩
  obtain ⟨e₆, i₆, h₆⟩ : ∃ e₆ i₆, expectWhitespaceOrEnd code i₅ = (e₆, i₆) := ⟨_, _, rfl⟩
  have h7 := expectStr_le h₁
  have h8 := (expectHexFromStr_le h₂).1
  have h9 := (expectWhitespaceOrEnd_le h₃).1
  have h10 := expectStr_le h₄
  have h11 := (expectHexFromStr_le h₅).1
  have h12 := (expectWhitespaceOrEnd_le h₆).1
  simp only [h₁, h₂, h₃, h₄, h₅, h₆] at h
  split_ifs at h
  · -- a label
    simp only [Prod.mk.injEq] at h
    obtain ⟨rfl, -, rfl⟩ := h
    have hle : idx ≤ i₆ := by omega
    refine ⟨hle.trans le_skip, fun l hl => ?_⟩
    obtain rfl := Option.some.inj hl
    exact ⟨rfl, stop_le_ignore hle⟩
  all_goals
    simp only [Prod.mk.injEq] at h
    obtain ⟨rfl, -, rfl⟩ := h
    exact ⟨by omega, by simp⟩

/-- What an instruction adds: a word, and the place of a reference. -/
lemma compileInstr_cases {c c' : Comp} {op : ℕ} (hr : Ready code c.idx)
    (h : compileInstr code c op = some c') :
    c.idx ≤ c'.idx ∧ Ready code c'.idx ∧ c'.prgmCtr = c.prgmCtr + 1 ∧ c'.lbls = c.lbls ∧
      (∃ w, c'.arr = c.arr ++ [w]) ∧
      (c'.lblRefs = c.lblRefs ∨ ∃ l, c'.lblRefs = c.lblRefs ++ [⟨l, c.prgmCtr⟩] ∧
        c.idx ≤ l ∧ Ready code l ∧ stop code l ≤ c'.idx) := by
  rw [compileInstr] at h
  obtain ⟨⟨idx, instr, k⟩, h1, rfl⟩ := Option.map_eq_some_iff.mp h
  obtain ⟨h2, h3⟩ := compileArgs_le hr h1
  obtain ⟨idx', instr', ref, h4⟩ : ∃ idx' instr' ref, (if nArgs op ≠ 0 then
    compileLast code (nArgs op) idx instr k else (idx, instr, none)) = (idx', instr', ref) :=
    ⟨_, _, _, rfl⟩
  have h5 : idx ≤ idx' ∧ ∀ l ∈ ref, l = idx ∧ stop code l ≤ idx' := by
    split_ifs at h4
    · exact compileLast_le h4
    · simp only [Prod.mk.injEq] at h4
      obtain ⟨rfl, -, rfl⟩ := h4
      exact ⟨le_rfl, by simp⟩
  dsimp only
  rw [h4]
  refine ⟨?_, ready_ignoreWhitespace, rfl, rfl, ⟨instr', rfl⟩, ?_⟩
  · exact (h2.trans h5.1).trans le_skip
  · cases ref with
    | none => exact .inl rfl
    | some l =>
      obtain ⟨rfl, h6⟩ := h5.2 l rfl
      exact .inr ⟨l, rfl, h2, h3, h6.trans le_skip⟩

/-- **One round** of the loop: a word, an instruction, or a label. -/
lemma compileStep_cases {c c' : Comp} (hr : Ready code c.idx) (hlt : c.idx < code.length)
    (h : compileStep code c = some c') : c.idx < c'.idx ∧ Ready code c'.idx ∧
    ((c'.prgmCtr = c.prgmCtr + 1 ∧ c'.lbls = c.lbls ∧ (∃ w, c'.arr = c.arr ++ [w]) ∧
      (c'.lblRefs = c.lblRefs ∨ ∃ l, c'.lblRefs = c.lblRefs ++ [⟨l, c.prgmCtr⟩] ∧
        c.idx ≤ l ∧ Ready code l ∧ stop code l ≤ c'.idx)) ∨
    (c'.prgmCtr = c.prgmCtr ∧ c'.arr = c.arr ∧ c'.lblRefs = c.lblRefs ∧
      stop code c.idx ≤ c'.idx ∧
      c'.lbls = if c.lbls.any fun l => l.label = c.idx then c.lbls
        else c.lbls ++ [⟨c.idx, c.prgmCtr⟩])) := by
  rw [compileStep] at h
  obtain ⟨e₁, i₁, v, h₁⟩ : ∃ e₁ i₁ v, expectHexFromStr code c.idx (wordMod - 1) = (e₁, i₁, v) :=
    ⟨_, _, _, rfl⟩
  obtain ⟨e₂, i₂, h₂⟩ : ∃ e₂ i₂, expectWhitespaceOrEnd code i₁ = (e₂, i₂) := ⟨_, _, rfl⟩
  obtain ⟨e₃, i₃, op, h₃⟩ : ∃ e₃ i₃ op, matchOpcode code c.idx = (e₃, i₃, op) := ⟨_, _, _, rfl⟩
  obtain ⟨e₄, i₄, h₄⟩ : ∃ e₄ i₄, expectWhitespace code i₃ = (e₄, i₄) := ⟨_, _, rfl⟩
  simp only [h₁, h₂, h₃, h₄] at h
  obtain ⟨h5, h6⟩ := expectHexFromStr_le h₁
  obtain ⟨h7, h8⟩ := expectWhitespaceOrEnd_le h₂
  obtain ⟨h9, h10⟩ := matchOpcode_le h₃
  obtain ⟨h11, h12⟩ := expectWhitespace_le h₄
  by_cases he₁ : (e₁ || e₂) = true
  · rw [if_pos he₁] at h
    by_cases he₂ : (e₃ || e₄) = true
    · rw [if_pos he₂] at h
      obtain rfl := Option.some.inj h
      have hstop : stop code c.idx ≤ ignoreNonWhitespace code c.idx := stop_le_ignore le_rfl
      have hlt' := lt_stop hr hlt
      have hle : ignoreNonWhitespace code c.idx ≤
          ignoreWhitespace code (ignoreNonWhitespace code c.idx) := le_skip
      exact ⟨by dsimp only; omega, ready_ignoreWhitespace,
        .inr ⟨rfl, rfl, rfl, hstop.trans hle, rfl⟩⟩
    · rw [if_neg he₂] at h
      simp only [Bool.or_eq_true, not_or, Bool.not_eq_true] at he₂
      obtain ⟨h13, h14, h15⟩ := compileInstr_cases (c := { c with idx := i₄ }) (h12 he₂.2) h
      dsimp only at h13 h15
      have := h10 he₂.1
      refine ⟨by omega, h14, .inl ⟨h15.1, h15.2.1, h15.2.2.1, h15.2.2.2.imp id ?_⟩⟩
      rintro ⟨l, h16, h17, h18⟩
      exact ⟨l, h16, by omega, h18⟩
  · rw [if_neg he₁] at h
    simp only [Bool.or_eq_true, not_or, Bool.not_eq_true] at he₁
    obtain rfl := Option.some.inj h
    have := h6 he₁.1
    exact ⟨by dsimp only; omega, h8 he₁.2, .inl ⟨rfl, rfl, ⟨v, rfl⟩, .inl rfl⟩⟩

/-! ### Runs -/

/-- The labels and the references so far stand one after the other, before the index. -/
structure Marks (code : List ℕ) (c : Comp) : Prop where
  ready : Ready code c.idx
  length : c.arr.length = c.prgmCtr
  lbls_lt : ∀ l ∈ c.lbls, l.label < code.length ∧ Ready code l.label ∧ stop code l.label ≤ c.idx
  order : c.lbls.Pairwise fun l l' => stop code l.label ≤ l'.label
  refs_le : ∀ r ∈ c.lblRefs, Ready code r.label ∧ stop code r.label ≤ c.idx ∧
    r.addr < c.arr.length
  apart : ∀ l ∈ c.lbls, ∀ r ∈ c.lblRefs,
    stop code l.label ≤ r.label ∨ stop code r.label ≤ l.label

lemma marks_init : Marks code (compileInit code) where
  ready := ready_ignoreWhitespace
  length := rfl
  lbls_lt := by simp [compileInit]
  order := List.Pairwise.nil
  refs_le := by simp [compileInit]
  apart := by simp [compileInit]

lemma Marks.step {c c' : Comp} (hm : Marks code c) (hlt : c.idx < code.length)
    (h : compileStep code c = some c') : Marks code c' ∧ c.idx < c'.idx := by
  obtain ⟨h1, h2, h3⟩ := compileStep_cases hm.ready hlt h
  refine ⟨?_, h1⟩
  rcases h3 with ⟨hctr, hlbls, ⟨w, harr⟩, hrefs⟩ | ⟨hctr, harr, hrefs, hstop, hlbls⟩
  · have hlen : c'.arr.length = c.arr.length + 1 := by rw [harr, List.length_append]; rfl
    have hold : ∀ r ∈ c.lblRefs, Ready code r.label ∧ stop code r.label ≤ c'.idx ∧
        r.addr < c'.arr.length := fun r hr => by
      obtain ⟨h4, h5, h6⟩ := hm.refs_le r hr
      exact ⟨h4, by omega, by omega⟩
    have hlt : ∀ l ∈ c.lbls, l.label < code.length ∧ Ready code l.label ∧
        stop code l.label ≤ c'.idx := fun l hl => by
      obtain ⟨h4, h5, h6⟩ := hm.lbls_lt l hl
      exact ⟨h4, h5, by omega⟩
    have hc := hm.length
    refine ⟨h2, by omega, hlbls ▸ hlt, hlbls ▸ hm.order, ?_, ?_⟩
    · rcases hrefs with hrefs | ⟨p, hrefs, h4, h5, h6⟩
      · exact hrefs ▸ hold
      · rw [hrefs, List.forall_mem_append]
        exact ⟨hold, by simpa using ⟨h5, h6, by omega⟩⟩
    · rw [hlbls]
      rcases hrefs with hrefs | ⟨p, hrefs, h4, h5, h6⟩
      · exact hrefs ▸ hm.apart
      · intro l hl
        rw [hrefs, List.forall_mem_append]
        have := (hm.lbls_lt l hl).2.2
        exact ⟨hm.apart l hl, by simpa using .inl (by omega)⟩
  · have hold : ∀ r ∈ c.lblRefs, Ready code r.label ∧ stop code r.label ≤ c'.idx ∧
        r.addr < c.arr.length := fun r hr => by
      obtain ⟨h4, h5, h6⟩ := hm.refs_le r hr
      exact ⟨h4, by omega, h6⟩
    have hnew : c'.lbls = c.lbls ++ [⟨c.idx, c.prgmCtr⟩] := by
      rw [hlbls, if_neg]
      rw [List.any_eq_true]
      rintro ⟨l, hl, heq⟩
      obtain ⟨h4, h5, h6⟩ := hm.lbls_lt l hl
      have := lt_stop h5 h4
      rw [decide_eq_true_iff] at heq
      omega
    refine ⟨h2, by rw [harr, hctr, hm.length], ?_, ?_, by rw [hrefs, harr]; exact hold, ?_⟩
    · rw [hnew, List.forall_mem_append]
      refine ⟨fun l hl => ?_, by simpa using ⟨hlt, hm.ready, hstop⟩⟩
      obtain ⟨h4, h5, h6⟩ := hm.lbls_lt l hl
      exact ⟨h4, h5, by omega⟩
    · rw [hnew, List.pairwise_append]
      exact ⟨hm.order, List.pairwise_singleton _ _, by simpa using fun l hl => (hm.lbls_lt l hl).2.2⟩
    · rw [hnew, hrefs, List.forall_mem_append]
      exact ⟨hm.apart, by simpa using fun r hr => .inr (hm.refs_le r hr).2.1⟩

/-- **A run** of the loop. -/
lemma Marks.run {c c' : Comp} (hm : Marks code c) (h : compileLoop code n c = some c') :
    Marks code c' := by
  induction n generalizing c with
  | zero => cases h
  | succ n ih =>
    rw [compileLoop] at h
    split_ifs at h with hlt
    · obtain ⟨c₁, h1, h2⟩ := Option.bind_eq_some_iff.mp h
      exact ih (hm.step hlt h1).1 h2
    · exact Option.some.inj h ▸ hm

end LispMachine.AsmMarks
