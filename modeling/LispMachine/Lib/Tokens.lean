import Mathlib.Data.List.TakeWhile

/-!
The tokens of a text: its maximal runs of symbols that are no separators.
-/

namespace LispMachine.Lib.Tokens

variable {α : Type*} {sep : α → Bool}

/-- The text is split at the separators. -/
def tokens (sep : α → Bool) (l : List α) : List (List α) :=
  (l.splitOnP sep).filter fun tok => !tok.isEmpty

@[simp] lemma tokens_nil : tokens sep [] = [] := rfl

lemma tokens_sep {c : α} {l : List α} (h : sep c = true) :
    tokens sep (c :: l) = tokens sep l := by
  simp [tokens, List.splitOnP_cons_eq_if_modifyHead, h]

lemma tokens_seps {l r : List α} (h : ∀ c ∈ l, sep c = true) :
    tokens sep (l ++ r) = tokens sep r := by
  induction l with
  | nil => rfl
  | cons c l ih =>
    rw [List.cons_append, tokens_sep (h c (by simp))]
    exact ih fun c hc => h c (by simp [hc])

/-- A run of symbols before a separator is a token. -/
lemma tokens_tok {tok l : List α} {c : α} (h0 : tok ≠ []) (ht : ∀ x ∈ tok, sep x = false)
    (hc : sep c = true) : tokens sep (tok ++ c :: l) = tok :: tokens sep l := by
  rw [tokens, List.splitOnP_append_cons_of_forall_mem ht c hc, List.filter_cons]
  simp [h0, tokens]

/-- A text is read on both sides of a separator. -/
lemma tokens_append_cons {c : α} (l r : List α) (h : sep c = true) :
    tokens sep (l ++ c :: r) = tokens sep l ++ tokens sep r := by
  rw [tokens, List.splitOnP_append_cons l r h, List.filter_append]
  rfl

/-- A separator at the end changes nothing. -/
lemma tokens_append_sep {c : α} {l : List α} (h : sep c = true) :
    tokens sep (l ++ [c]) = tokens sep l := by
  rw [tokens_append_cons l [] h, tokens_nil, List.append_nil]

/-- A run of symbols up to the end is one token at most. -/
lemma tokens_tok_le {tok : List α} (ht : ∀ x ∈ tok, sep x = false) :
    (tokens sep tok).length ≤ 1 := by
  rw [tokens, List.splitOnP_eq_singleton ht]
  exact List.length_filter_le _ _

/-- A text that begins with a symbol has a token. -/
lemma tokens_ne_nil {c : α} {l : List α} (hc : sep c = false) : tokens sep (c :: l) ≠ [] := by
  obtain ⟨w, ws, hw⟩ := List.exists_cons_of_ne_nil (List.splitOnP_ne_nil sep l)
  rw [tokens, List.splitOnP_cons_eq_if_modifyHead, hc, hw]
  simp

lemma ne_nil_of_mem {tok l : List α} (h : tok ∈ tokens sep l) : tok ≠ [] := by
  have := (List.mem_filter.mp h).2
  simpa using this

/-- A text that ends in a separator is that of its first token and a rest. -/
lemma exists_tok {c : α} {l : List α} (hc : sep c = false)
    (he : ∃ r d, c :: l = r ++ [d] ∧ sep d = true) :
    ∃ tok d r, c :: l = tok ++ d :: r ∧ tok ≠ [] ∧ (∀ x ∈ tok, sep x = false) ∧
      sep d = true := by
  obtain ⟨r, d, h1, h2⟩ := he
  rcases hspan : (c :: l).dropWhile (fun x => !sep x) with _ | ⟨e, t⟩
  · -- there is a separator at the end
    have hall := List.dropWhile_eq_nil_iff.mp hspan d (by rw [h1]; simp)
    simp [h2] at hall
  · refine ⟨(c :: l).takeWhile (fun x => !sep x), e, t, ?_, ?_, fun x hx => ?_, ?_⟩
    · rw [← hspan, List.takeWhile_append_dropWhile]
    · simp [hc]
    · simpa using List.mem_takeWhile_imp hx
    · have := List.head?_dropWhile_not (fun x => !sep x) (c :: l)
      rw [hspan] at this
      simpa using this

end LispMachine.Lib.Tokens
