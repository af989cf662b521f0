import LispMachine.AsmResolve

/-!
Texts that are put together from parts.

A part is whole statements if it is read to its end, and then it is read in the same way whatever
follows it. A line of a text is one statement.
-/

namespace LispMachine.AsmParts

open LispMachine.Memory LispMachine.Asm LispMachine.AsmRef LispMachine.AsmScan
open LispMachine.AsmStep LispMachine.AsmCorrect LispMachine.AsmResolve LispMachine.Lib.Tokens

variable {s t : List ℕ} {x y z tok : Token} {ts us vs : List Token} {ss ss' : List Stmt}
variable {st : Stmt} {m n op a d : ℕ}

/-! ### The reading of what follows -/

lemma mapM_length {regs : List ℕ} (h : ts.mapM register = some regs) :
    regs.length = ts.length := by
  induction ts generalizing regs with
  | nil =>
    cases h
    rfl
  | cons t ts ih =>
    rw [mapM_register] at h
    obtain ⟨q, -, h⟩ := Option.bind_eq_some_iff.mp h
    obtain ⟨regs', hregs, rfl⟩ := Option.map_eq_some_iff.mp h
    exact congrArg (· + 1) (ih hregs)

lemma first_append (h : first x ts = .stmt st us) : first x (ts ++ vs) = .stmt st (us ++ vs) := by
  unfold first at h ⊢
  split at h
  · cases h
    rfl
  · split at h
    · cases h
      rfl
    · next op _ =>
      unfold firstInstr at h ⊢
      by_cases hle : nArgs op - 1 ≤ ts.length
      · rw [List.take_append_of_le_length hle, List.drop_append_of_le_length hle]
        split at h
        · cases h
        · split_ifs at h ⊢
          cases hdrop : ts.drop (nArgs op - 1) with
          | nil => rw [hdrop] at h; cases h
          | cons u us' =>
            rw [hdrop] at h
            obtain ⟨rfl, rfl⟩ := First.stmt.inj h
            rfl
      · -- there is no statement without its operands
        split at h
        · cases h
        · next regs hregs =>
          have hlen : regs.length ≤ ts.length := by
            rw [mapM_length hregs, List.length_take]
            omega
          rw [if_pos (by omega)] at h
          cases h

/-- More steps than tokens do not matter. -/
lemma readTokens_fuel (hm : ts.length ≤ m) (hn : ts.length ≤ n) :
    readTokens m ts = readTokens n ts := by
  induction m generalizing ts n with
  | zero =>
    obtain rfl := List.length_eq_zero_iff.mp (by omega : ts.length = 0)
    rw [readTokens_nil, readTokens_nil]
  | succ m ih =>
    cases ts with
    | nil => rw [readTokens_nil, readTokens_nil]
    | cons t ts =>
      obtain ⟨n, rfl⟩ := Nat.exists_eq_succ_of_ne_zero (show n ≠ 0 by simp at hn; omega)
      rw [readTokens, readTokens]
      cases hf : first t ts with
      | failed => rfl
      | short => rfl
      | stmt st us =>
        have := first_length hf
        rw [List.length_cons] at hm hn
        exact congrArg (Reading.cons st (t :: ts)) (ih (by omega) (by omega))

/-- What is read to its end is read in the same way whatever follows it. -/
lemma readTokens_append (hn : ts.length ≤ n) (hm : (ts ++ us).length ≤ m)
    (h : (readTokens n ts).ending = .done) :
    (readTokens m (ts ++ us)).stmts =
        (readTokens n ts).stmts ++ (readTokens us.length us).stmts ∧
      (readTokens m (ts ++ us)).ending = (readTokens us.length us).ending := by
  induction n generalizing ts m with
  | zero =>
    obtain rfl := List.length_eq_zero_iff.mp (by omega : ts.length = 0)
    rw [List.nil_append] at hm ⊢
    rw [readTokens_fuel hm le_rfl, readTokens_nil]
    exact ⟨rfl, rfl⟩
  | succ n ih =>
    cases ts with
    | nil =>
      rw [List.nil_append] at hm ⊢
      rw [readTokens_fuel hm le_rfl, readTokens_nil]
      exact ⟨rfl, rfl⟩
    | cons t ts =>
      rw [List.cons_append, List.length_cons] at hm
      obtain ⟨m, rfl⟩ := Nat.exists_eq_succ_of_ne_zero (show m ≠ 0 by omega)
      rw [readTokens] at h
      rw [List.cons_append, readTokens, readTokens]
      cases hf : first t ts with
      | failed => rw [hf] at h; cases h
      | short => rw [hf] at h; cases h
      | stmt st us' =>
        rw [hf] at h
        have hlen := first_length hf
        rw [List.length_append] at hm
        rw [List.length_cons] at hn
        obtain ⟨h1, h2⟩ := ih (by omega)
          (show (us' ++ us).length ≤ m by rw [List.length_append]; omega) h
        rw [first_append hf]
        exact ⟨congrArg (st :: ·) h1, h2⟩

/-! ### Parts -/

lemma tokens_append (hs : Closed s) :
    tokens whitespace (s ++ t) = tokens whitespace s ++ tokens whitespace t := by
  rcases List.eq_nil_or_concat s with rfl | ⟨l, d, rfl⟩
  · rfl
  · have hd := hs d (by simp)
    rw [List.concat_eq_append, List.append_assoc, List.singleton_append,
      tokens_append_cons _ _ hd, tokens_append_sep hd]

instance : DecidablePred Closed := fun s => inferInstanceAs (Decidable (∀ d ∈ s.getLast?, _))

/-- The text `t` is the statements `ss`. -/
structure Code (t : List ℕ) (ss : List Stmt) : Prop where
  closed : Closed t
  done : (reading t).ending = .done
  stmts : (reading t).stmts = ss

instance (t : List ℕ) (ss : List Stmt) : Decidable (Code t ss) :=
  decidable_of_iff (Closed t ∧ (reading t).ending = .done ∧ (reading t).stmts = ss)
    ⟨fun ⟨h1, h2, h3⟩ => ⟨h1, h2, h3⟩, fun ⟨h1, h2, h3⟩ => ⟨h1, h2, h3⟩⟩

lemma Closed.append (hs : Closed s) (ht : Closed t) : Closed (s ++ t) := by
  rcases List.eq_nil_or_concat t with rfl | ⟨l, d, rfl⟩
  · rwa [List.append_nil]
  · rw [List.concat_eq_append, ← List.append_assoc]
    exact closed_concat _ (ht d (by simp))

lemma Code.nil : Code [] [] := ⟨by simp [Closed], rfl, rfl⟩

/-- **Parts** that are whole statements are these one after the other. -/
lemma Code.append (hs : Code s ss) (ht : Code t ss') : Code (s ++ t) (ss ++ ss') := by
  have h1 := readTokens_append le_rfl (show (tokens whitespace s ++ tokens whitespace t).length ≤
    (tokens whitespace (s ++ t)).length by rw [tokens_append hs.closed]) hs.done
  rw [← tokens_append hs.closed] at h1
  refine ⟨Closed.append hs.closed ht.closed, h1.2.trans ht.done, h1.1.trans ?_⟩
  exact congrArg₂ _ hs.stmts ht.stmts

lemma wordsOf_append (ss ss' : List Stmt) : wordsOf (ss ++ ss') = wordsOf ss ++ wordsOf ss' := by
  induction ss with
  | nil => rfl
  | cons st ss ih =>
    rw [List.cons_append, wordsOf_cons, ih, ← List.append_assoc, ← wordsOf_cons]

/-- The instruction, and the first two of its three operands, that a text is. -/
def instrHead (t : List ℕ) : Option (ℕ × ℕ × ℕ) :=
  match tokens whitespace t with
  | [x, y, z] => do
    let op ← opcode x
    let d ← register y
    let a ← register z
    if hexNum x = none ∧ nArgs op = 3 then some (op, d, a) else none
  | _ => none

/-- **A line** with any last operand. -/
lemma code_line (h : instrHead t = some (op, d, a)) (hc : Closed t) (hs : Solid tok)
    (h0 : tok ≠ []) : Code (t ++ tok ++ [10]) [.instr op [d, a] (lastOperand 3 tok)] := by
  unfold instrHead at h
  split at h
  · next x y z heq =>
    obtain ⟨op', hop, h⟩ := Option.bind_eq_some_iff.mp h
    obtain ⟨d', hd, h⟩ := Option.bind_eq_some_iff.mp h
    obtain ⟨a', ha, h⟩ := Option.bind_eq_some_iff.mp h
    split_ifs at h with hx
    cases h
    have htok : tokens whitespace (t ++ tok ++ [10]) = [x, y, z, tok] := by
      rw [List.append_assoc, tokens_append hc, heq, tokens_tok h0 hs (by decide)]
      rfl
    have hfirst : first x [y, z, tok] = .stmt (.instr op [d, a] (lastOperand 3 tok)) [] := by
      have hregs : ([y, z, tok].take 2).mapM register = some [d, a] := by
        simp [hd, ha]
      rw [first, hx.1]
      dsimp only
      rw [hop]
      dsimp only
      rw [firstInstr, hx.2, hregs]
      rfl
    have hread : reading (t ++ tok ++ [10]) =
        ⟨[.instr op [d, a] (lastOperand 3 tok)], [[x, y, z, tok]], .done⟩ := by
      rw [reading, htok, List.length_cons, readTokens, hfirst]
      rfl
    exact ⟨closed_concat _ (by decide), by rw [hread], by rw [hread]⟩
  · cases h

/-! ### The words of a text -/

/-- **The words** of whole statements without an operand that is `r` and no more. -/
lemma compile_code (h : Code t ss) (h0 : t ≠ []) (hb : ∀ st ∈ ss, ¬ Bare st) :
    compile t = emit (layout ss 0) ss := by
  have hag : Agrees t := by
    refine (agrees_iff h.closed h0).mpr ⟨?_, fun hs => ?_⟩
    · rintro ⟨i, st, hi, hbare, -⟩
      rw [h.stmts] at hi
      exact hb st (List.mem_of_getElem? hi) hbare
    · exact absurd (h.done.symm.trans hs.1) (by decide)
  rw [hag.1, assemble, h.done, h.stmts]

end LispMachine.AsmParts
