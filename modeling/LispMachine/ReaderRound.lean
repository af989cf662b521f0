import LispMachine.NumStr
import LispMachine.Reader

/-!
The reader reads back every way of writing down a tree of tokens.
-/

namespace LispMachine.ReaderRound

open LispMachine.Bignum LispMachine.BignumWf LispMachine.NumStr LispMachine.Reader
open LispMachine.Lib.Digits

/-! ### Trees of tokens and their texts -/

/-- What a program is written of. -/
inductive Token
  | op (c : ℕ)
  | name (s : List ℕ)
  | numeral (neg : Bool) (cs : List ℕ)
  | quoted (s : List ℕ)
  | list (ts : List Token)

/-- Characters at which a name ends. -/
def Delim (c : ℕ) : Prop := [c] ∈ whitespace ∨ [c] ∈ ops

/-- Hex digits, perhaps after a sign. -/
def IsNumeral (s : List ℕ) : Prop :=
  ∃ cs ds, ds ≠ [] ∧ Spells cs ds ∧ (s = cs ∨ s = 45 :: cs)

structure IsName (s : List ℕ) : Prop where
  ne_nil : s ≠ []
  solid : ∀ c ∈ s, ¬ Delim c
  not_numeral : ¬ IsNumeral s

/-- Names and numerals, which run on until a delimiter. -/
def Token.Bare : Token → Prop
  | .name _ => True
  | .numeral _ _ => True
  | _ => False

/-- A name or numeral may be written before this text: another one is not adjacent to it. -/
def Spaced (ts : List Token) (r : List ℕ) : Prop :=
  ∀ t ∈ ts.head?, t.Bare → ∃ c q, r = c :: q ∧ [c] ∈ whitespace

/-- The text is a way of writing the tokens down. -/
inductive Renders : List Token → List ℕ → Prop
  | nil : Renders [] []
  | ws {ts : List Token} {r : List ℕ} {c : ℕ} (hc : [c] ∈ whitespace) (h : Renders ts r) :
    Renders ts (c :: r)
  | op {ts : List Token} {r : List ℕ} {c : ℕ} (hc : c ∈ [126, 58, 62, 124, 60])
    (h : Renders ts r) : Renders (.op c :: ts) (c :: r)
  | name {ts : List Token} {r s : List ℕ} (hs : IsName s) (h : Renders ts r)
    (hr : Spaced ts r) : Renders (.name s :: ts) (s ++ r)
  | numeral {ts : List Token} {r cs ds : List ℕ} {neg : Bool} (hs : Spells cs ds) (h0 : ds ≠ [])
    (h : Renders ts r) (hr : Spaced ts r) :
    Renders (.numeral neg cs :: ts) ((if neg then [45] else []) ++ cs ++ r)
  | quoted {ts : List Token} {r s : List ℕ} (hs : 39 ∉ s) (h : Renders ts r) :
    Renders (.quoted s :: ts) (39 :: s ++ 39 :: r)
  | list {ts us : List Token} {r q : List ℕ} (hq : Renders us q) (h : Renders ts r) :
    Renders (.list us :: ts) (91 :: q ++ 93 :: r)

/-- The integer that a numeral stands for. -/
def numeralValue (neg : Bool) (cs : List ℕ) : ℤ :=
  if neg then -(numeral 16 (cs.filterMap digitOf) : ℤ) else numeral 16 (cs.filterMap digitOf)

/-- The objects are the tokens: numerals are numbers of their value, and all the others strings of
just their characters. -/
inductive Reads : List Token → List Tree → Prop
  | nil : Reads [] []
  | op {ts : List Token} {q : List Tree} {c : ℕ} (h : Reads ts q) :
    Reads (.op c :: ts) (.str [c] :: q)
  | name {ts : List Token} {q : List Tree} {s : List ℕ} (h : Reads ts q) :
    Reads (.name s :: ts) (.str s :: q)
  | numeral {ts : List Token} {q : List Tree} {neg : Bool} {cs n : List ℕ}
    (hn : denote n = numeralValue neg cs) (h : Reads ts q) :
    Reads (.numeral neg cs :: ts) (.num n :: q)
  | quoted {ts : List Token} {q : List Tree} {s : List ℕ} (h : Reads ts q) :
    Reads (.quoted s :: ts) (.str s :: q)
  | list {ts us : List Token} {q p : List Tree} (hp : Reads us p) (h : Reads ts q) :
    Reads (.list us :: ts) (.arr p :: q)

/-! ### Numerals -/

lemma digitsLoop_isSome {cs : List ℕ} {x y : ℕ} (h : digitsLoop x cs = some y) :
    ∃ ds, Spells cs ds := by
  induction cs generalizing x with
  | nil => exact ⟨[], rfl⟩
  | cons c cs ih =>
    rw [digitsLoop] at h
    obtain ⟨d, hd, h⟩ := Option.bind_eq_some_iff.mp h
    obtain ⟨ds, hds⟩ := ih h
    exact ⟨d :: ds, by rw [Spells, List.map_cons, List.map_cons, hd, hds]⟩

lemma spells_append {cs cs' ds ds' : List ℕ} (h : Spells cs ds) (h' : Spells cs' ds') :
    Spells (cs ++ cs') (ds ++ ds') := by
  rw [Spells, List.map_append, List.map_append, h, h']

lemma wordsLoop_isSome {cs ws : List ℕ} {os k : ℕ} (h : wordsLoop cs os k = some ws) :
    ∃ ds, Spells ((cs.take (k * 16 + os)).drop os) ds := by
  induction k generalizing ws with
  | zero => exact ⟨[], by simp [Spells]⟩
  | succ k ih =>
    rw [wordsLoop] at h
    obtain ⟨x, hx, h⟩ := Option.bind_eq_some_iff.mp h
    obtain ⟨ws', hws, -⟩ := Option.map_eq_some_iff.mp h
    obtain ⟨ds, hds⟩ := ih hws
    obtain ⟨es, hes⟩ := digitsLoop_isSome hx
    refine ⟨ds ++ es, ?_⟩
    have hsplit : (cs.take ((k + 1) * 16 + os)).drop os =
        (cs.take (k * 16 + os)).drop os ++ (cs.drop (k * 16 + os)).take 16 := by
      rw [show (k + 1) * 16 + os = k * 16 + os + 16 by ring, List.take_add, List.drop_append]
      congr 1
      by_cases hlen : k * 16 + os ≤ cs.length
      · rw [List.length_take_of_le hlen, show os - (k * 16 + os) = 0 by omega, List.drop_zero]
      · simp [List.drop_of_length_le (by omega : cs.length ≤ k * 16 + os)]
    rw [hsplit]
    exact spells_append hds hes

/-- Only numerals are read as numbers. -/
lemma isNumeral_of_strToNum {s n : List ℕ} (h : strToNum s = some n) : IsNumeral s := by
  have hdigits : ∀ {cs m : List ℕ}, digitsToNum cs = some m → ∃ ds, Spells cs ds := by
    intro cs m h
    rw [digitsToNum] at h
    obtain ⟨c, hc, h⟩ := Option.bind_eq_some_iff.mp h
    obtain ⟨ws, hws, -⟩ := Option.map_eq_some_iff.mp h
    obtain ⟨ds, hds⟩ := digitsLoop_isSome hc
    obtain ⟨es, hes⟩ := wordsLoop_isSome hws
    refine ⟨ds ++ es, ?_⟩
    have := spells_append hds hes
    rwa [show cs.length / 16 * 16 + cs.length % 16 = cs.length by omega, List.take_length,
      List.take_append_drop] at this
  cases s with
  | nil => simp [strToNum] at h
  | cons c s =>
    rw [strToNum] at h
    split_ifs at h with h1 h2
    · obtain ⟨m, hm, -⟩ := Option.map_eq_some_iff.mp h
      obtain ⟨ds, hds⟩ := hdigits hm
      refine ⟨s, ds, ?_, hds, .inr (by rw [h1])⟩
      rintro rfl
      exact h2 hds.length
    · obtain ⟨ds, hds⟩ := hdigits h
      refine ⟨c :: s, ds, ?_, hds, .inl rfl⟩
      rintro rfl
      exact absurd hds.length (by simp)

/-- A numeral is read as its value. -/
lemma strToNum_numeral {cs ds : List ℕ} (neg : Bool) (hs : Spells cs ds) (h0 : ds ≠ []) :
    ∃ n, strToNum ((if neg then [45] else []) ++ cs) = some n ∧
      denote n = numeralValue neg cs := by
  have hds : cs.filterMap digitOf = ds := by
    have h1 : (cs.map digitOf).filterMap id = (ds.map some).filterMap id := congrArg _ hs
    simpa [List.filterMap_map] using h1
  obtain ⟨ws, h1, h2, h3⟩ := digitsToNum_spells hs
  cases neg with
  | false =>
    refine ⟨ws ++ [0], by simp [strToNum_spells hs h0, h1], ?_⟩
    simp [numeralValue, hds, denote_concat, h3]
  | true =>
    have hcs : cs ≠ [] := by
      rintro rfl
      exact h0 (List.length_eq_zero_iff.mp hs.length.symm)
    refine ⟨numNegate (ws ++ [0]), by simp [strToNum_neg hcs, h1], ?_⟩
    rw [denote_numNegate h2, numeralValue, hds, h3]
    rfl

/-! ### The loops -/

variable {code rest s : List ℕ} {i n c : ℕ} {ret : List Tree}

lemma drop_cons (h : code.drop i = c :: rest) :
    i < code.length ∧ code.getD i 0 = c ∧ code.drop (i + 1) = rest ∧
      code.length - i = rest.length + 1 := by
  have hlen := congrArg List.length h
  rw [List.length_drop, List.length_cons] at hlen
  have hi : i < code.length := by omega
  rw [List.drop_eq_getElem_cons hi] at h
  obtain ⟨h1, h2⟩ := List.cons.inj h
  exact ⟨hi, by rw [List.getD_eq_getElem _ _ hi, h1], h2, hlen⟩

lemma quoteLoop_spec (tok : List ℕ) (hs : 39 ∉ s) (h : code.drop i = s ++ 39 :: rest) :
    quoteLoop code (code.length - i) i tok = (tok ++ s, i + s.length) := by
  induction s generalizing i tok with
  | nil =>
    obtain ⟨-, h1, -, h2⟩ := drop_cons h
    rw [h2, quoteLoop, h1]
    simp [strDelim]
  | cons c s ih =>
    rw [List.cons_append] at h
    obtain ⟨-, h1, h2, h3⟩ := drop_cons h
    rw [List.mem_cons, not_or] at hs
    have h4 := ih (tok ++ [c]) hs.2 h2
    rw [show code.length - (i + 1) = (s ++ 39 :: rest).length by omega] at h4
    rw [h3, quoteLoop, h1]
    simp only [strDelim, List.cons.injEq, and_true, Ne.symm hs.1, if_false, h4,
      List.append_assoc, List.singleton_append, List.length_cons, Prod.mk.injEq, true_and]
    omega

/-- The text after a name or numeral does not go on with it. -/
def Stops (rest : List ℕ) : Prop := ∀ c ∈ rest.head?, Delim c

/-- The index where a name ended is behind it, or one character before a delimiter. -/
lemma nameLoop_spec (tok : List ℕ) (hi : 1 ≤ i) (hs : ∀ c ∈ s, ¬ Delim c) (hr : Stops rest)
    (h : code.drop i = s ++ rest) :
    nameLoop code (code.length - i) i tok =
      (tok ++ s, if rest = [] then i + s.length else i + s.length - 1) := by
  induction s generalizing i tok with
  | nil =>
    cases rest with
    | nil =>
      have : code.length - i = 0 := by simpa using congrArg List.length h
      rw [this]
      simp [nameLoop]
    | cons c rest =>
      obtain ⟨-, h1, -, h2⟩ := drop_cons h
      have hd : Delim c := hr c rfl
      rw [h2, nameLoop, h1, if_pos (show [c] ∈ whitespace ∨ [c] ∈ ops from hd)]
      simp
  | cons c s ih =>
    rw [List.cons_append] at h
    obtain ⟨-, h1, h2, h3⟩ := drop_cons h
    obtain ⟨hc, hs⟩ := List.forall_mem_cons.mp hs
    have h4 := ih (tok ++ [c]) (by omega) hs h2
    rw [show code.length - (i + 1) = (s ++ rest).length by omega] at h4
    rw [h3, nameLoop, h1, if_neg (show ¬ ([c] ∈ whitespace ∨ [c] ∈ ops) from hc), h4,
      List.length_cons, List.append_assoc]
    split_ifs
    · simp
      omega
    · simp

/-! ### The main loop -/

lemma loop_end (h : code.drop i = []) : tokenizeLoop code (n + 1) i ret = some (ret, i) := by
  have : code.length ≤ i := List.drop_eq_nil_iff.mp h
  rw [tokenizeLoop, if_neg (by omega)]

lemma loop_close (h : code.drop i = 93 :: rest) :
    tokenizeLoop code (n + 1) i ret = some (ret, i + 1) := by
  obtain ⟨h1, h2, -⟩ := drop_cons h
  rw [tokenizeLoop, if_pos h1, h2]
  rfl

lemma loop_ws (h : code.drop i = c :: rest) (hc : [c] ∈ whitespace) :
    tokenizeLoop code (n + 1) i ret = tokenizeLoop code n (i + 1) ret := by
  obtain ⟨h1, h2, -⟩ := drop_cons h
  rw [tokenizeLoop, if_pos h1, h2]
  exact if_pos hc

lemma loop_op (h : code.drop i = c :: rest) (hc : c ∈ [126, 58, 62, 124, 60]) :
    tokenizeLoop code (n + 1) i ret = tokenizeLoop code n (i + 1) (ret ++ [.str [c]]) := by
  obtain ⟨h1, h2, -⟩ := drop_cons h
  have hall : ∀ c ∈ [126, 58, 62, 124, 60], [c] ∉ whitespace ∧ [c] ∈ ops ∧ [c] ≠ strDelim ∧
      [c] ≠ blkLDelim ∧ [c] ≠ blkRDelim := by decide
  have h3 := hall c hc
  rw [tokenizeLoop, if_pos h1, h2]
  simp only [h3, if_false, if_true]

lemma loop_quoted (n : ℕ) (ret : List Tree) (hs : 39 ∉ s) (h : code.drop i = 39 :: s ++ 39 :: rest) :
    code.drop (i + s.length + 2) = rest ∧
      tokenizeLoop code (n + 1) i ret =
        tokenizeLoop code n (i + s.length + 2) (ret ++ [.str s]) := by
  obtain ⟨h1, h2, h3, -⟩ := drop_cons h
  have h4 : [39] ∉ whitespace ∧ [39] ∈ ops := by decide
  constructor
  · have : code.drop (i + 1 + (s.length + 1)) = rest := by
      rw [← List.drop_drop, h3, List.append_eq, List.append_cons]
      exact List.drop_left' (by simp)
    rwa [show i + s.length + 2 = i + 1 + (s.length + 1) by omega]
  · rw [tokenizeLoop, if_pos h1, h2]
    simp only [h4, if_false, if_true, strDelim]
    rw [quoteLoop_spec _ hs h3, List.nil_append,
      show i + 1 + s.length + 1 = i + s.length + 2 by omega]

/-- The object that a bare token becomes. -/
def bareTree (s : List ℕ) : Tree :=
  match strToNum s with
  | some b => .num b
  | none => .str s

lemma loop_bare (n : ℕ) (ret : List Tree) (hs : ∀ c ∈ s, ¬ Delim c) (h0 : s ≠ []) (hr : Stops rest)
    (h : code.drop i = s ++ rest) : ∃ j, code.drop j = rest ∧ (rest ≠ [] → j = i + s.length) ∧
      tokenizeLoop code (n + 1) i ret = tokenizeLoop code n j (ret ++ [bareTree s]) := by
  obtain ⟨c, s, rfl⟩ := List.exists_cons_of_ne_nil h0
  rw [List.cons_append] at h
  obtain ⟨hc, hs⟩ := List.forall_mem_cons.mp hs
  obtain ⟨hc₁, hc₂⟩ := not_or.mp hc
  obtain ⟨h1, h2, h3, -⟩ := drop_cons h
  have hdrop : code.drop (i + (s.length + 1)) = rest := by
    rw [show i + (s.length + 1) = i + 1 + s.length by omega, ← List.drop_drop, h3,
      List.drop_left]
  refine ⟨(if rest = [] then i + 1 + s.length else i + 1 + s.length - 1) + 1, ?_, fun hne => ?_, ?_⟩
  · split_ifs with hnil
    · rw [hnil] at hdrop ⊢
      rw [List.drop_eq_nil_iff] at hdrop ⊢
      omega
    · rw [← hdrop]
      congr 1
      omega
  · rw [if_neg hne, List.length_cons]
    omega
  · rw [tokenizeLoop, if_pos h1, h2]
    simp only [hc₁, hc₂, if_false]
    rw [nameLoop_spec _ (by omega) hs hr h3]
    rfl

/-- A block is read by a loop of its own. -/
lemma loop_list {q : List ℕ} {p : List Tree} (ret : List Tree) (h : code.drop i = 91 :: q ++ 93 :: rest)
    (hp : tokenizeLoop code n (i + 1) [] = some (p, i + 1 + q.length + 1)) :
    code.drop (i + q.length + 2) = rest ∧
      tokenizeLoop code (n + 1) i ret =
        tokenizeLoop code n (i + q.length + 2) (ret ++ [.arr p]) := by
  obtain ⟨h1, h2, h3, -⟩ := drop_cons h
  have h4 : [91] ∉ whitespace ∧ [91] ∈ ops ∧ [91] ≠ strDelim := by decide
  constructor
  · have : code.drop (i + 1 + (q.length + 1)) = rest := by
      rw [← List.drop_drop, h3, List.append_eq, List.append_cons]
      exact List.drop_left' (by simp)
    rwa [show i + q.length + 2 = i + 1 + (q.length + 1) by omega]
  · rw [tokenizeLoop, if_pos h1, h2]
    simp only [h4, if_false, if_true, blkLDelim]
    rw [hp, Option.bind_some, show i + 1 + q.length + 1 = i + q.length + 2 by omega]

/-! ### The round trip -/

lemma delim_of_whitespace {c : ℕ} (h : [c] ∈ whitespace) : Delim c := .inl h

/-- What follows a name or numeral in a text. -/
lemma stops_append {ts : List Token} {r post : List ℕ} (h : Renders ts r) (hr : Spaced ts r)
    (hp : Stops post) : Stops (r ++ post) := by
  have hop : ∀ c ∈ [126, 58, 62, 124, 60], Delim c := by
    unfold Delim
    decide
  have hbare : ∀ t us, ts = t :: us → t.Bare → Stops (r ++ post) := by
    rintro t us rfl ht c hc
    obtain ⟨c', q, rfl, hws⟩ := hr t rfl ht
    obtain rfl : c' = c := Option.some.inj hc
    exact delim_of_whitespace hws
  cases h with
  | nil => exact hp
  | ws hc h =>
    rintro c hc'
    obtain rfl := Option.some.inj hc'
    exact delim_of_whitespace hc
  | op hc h =>
    rintro c hc'
    obtain rfl := Option.some.inj hc'
    exact hop _ hc
  | name hs h hr' => exact hbare _ _ rfl trivial
  | numeral hs h0 h hr' => exact hbare _ _ rfl trivial
  | quoted hs h =>
    rintro c hc'
    obtain rfl := Option.some.inj hc'
    exact .inr (by decide)
  | list hq h =>
    rintro c hc'
    obtain rfl := Option.some.inj hc'
    exact .inr (by decide)

lemma not_delim_of_digit {c d : ℕ} (h : digitOf c = some d) : ¬ Delim c := by
  rintro (hc | hc)
  · simp only [whitespace, List.mem_cons, List.cons.injEq, and_true, List.not_mem_nil,
      or_false] at hc
    rcases hc with rfl | rfl | rfl | rfl <;> simp [digitOf] at h
  · simp only [ops, blkLDelim, blkRDelim, strDelim, List.mem_cons, List.cons.injEq, and_true,
      List.not_mem_nil, or_false] at hc
    rcases hc with rfl | rfl | rfl | rfl | rfl | rfl | rfl | rfl <;> simp [digitOf] at h

lemma solid_numeral {cs ds : List ℕ} (neg : Bool) (hs : Spells cs ds) :
    ∀ c ∈ (if neg then [45] else []) ++ cs, ¬ Delim c := by
  have h45 : ¬ Delim 45 := by
    unfold Delim
    decide
  have hcs : ∀ c ∈ cs, ¬ Delim c := fun c hc => by
    have hmem : digitOf c ∈ ds.map some := hs ▸ List.mem_map_of_mem hc
    obtain ⟨d, -, hd⟩ := List.mem_map.mp hmem
    exact not_delim_of_digit hd.symm
  cases neg with
  | false => simpa using hcs
  | true => simpa [h45] using hcs

/-- The loop reads the tokens `q`, in a text up to the end of the program or of a block. -/
def ReadsTo (code : List ℕ) (post : List ℕ) (n i k : ℕ) (ret q : List Tree) : Prop :=
  (post = [] → ∃ j, tokenizeLoop code n i ret = some (ret ++ q, j)) ∧
    (post ≠ [] → tokenizeLoop code n i ret = some (ret ++ q, i + k + 1))

lemma ReadsTo.step {post : List ℕ} {m j k l : ℕ} {ret ret' q q' : List Tree}
    (h : ReadsTo code post n j l ret' q')
    (hrun : tokenizeLoop code m i ret = tokenizeLoop code n j ret') (hret : ret' ++ q' = ret ++ q)
    (hj : post ≠ [] → j + l = i + k) : ReadsTo code post m i k ret q := by
  refine ⟨fun h0 => ?_, fun h0 => ?_⟩
  · obtain ⟨e, he⟩ := h.1 h0
    exact ⟨e, by rw [hrun, he, hret]⟩
  · rw [hrun, h.2 h0, hret, hj h0]

/-- **The loop** on a text of tokens. -/
lemma loop_spec {ts : List Token} {r : List ℕ} (h : Renders ts r) (n i : ℕ) (ret : List Tree)
    (post : List ℕ) (hp : post = [] ∨ ∃ p, post = 93 :: p) (hcode : code.drop i = r ++ post)
    (hn : r.length < n) : ∃ q, Reads ts q ∧ ReadsTo code post n i r.length ret q := by
  have hstops : ∀ post : List ℕ, (post = [] ∨ ∃ p, post = 93 :: p) → Stops post := by
    rintro post (rfl | ⟨p, rfl⟩) c hc
    · simp at hc
    · obtain rfl := Option.some.inj hc
      exact .inr (by decide)
  induction h generalizing i n ret post with
  | nil =>
    obtain ⟨n, rfl⟩ : ∃ k, n = k + 1 := ⟨n - 1, by simp at hn; omega⟩
    refine ⟨[], .nil, fun h0 => ?_, fun h0 => ?_⟩
    · subst h0
      exact ⟨i, by rw [loop_end hcode, List.append_nil]⟩
    · obtain ⟨p, rfl⟩ := hp.resolve_left h0
      rw [loop_close hcode, List.append_nil]
      rfl
  | @ws ts r c hc h ih =>
    obtain ⟨n, rfl⟩ : ∃ k, n = k + 1 := ⟨n - 1, by simp at hn; omega⟩
    rw [List.cons_append] at hcode
    rw [List.length_cons] at hn
    obtain ⟨q, hq, hrun⟩ := ih n (i + 1) ret post hp (drop_cons hcode).2.2.1 (by omega)
    exact ⟨q, hq, hrun.step (loop_ws hcode hc) rfl fun _ => by rw [List.length_cons]; omega⟩
  | @op ts r c hc h ih =>
    obtain ⟨n, rfl⟩ : ∃ k, n = k + 1 := ⟨n - 1, by simp at hn; omega⟩
    rw [List.cons_append] at hcode
    rw [List.length_cons] at hn
    obtain ⟨q, hq, hrun⟩ := ih n (i + 1) (ret ++ [.str [c]]) post hp (drop_cons hcode).2.2.1
      (by omega)
    exact ⟨_, hq.op, hrun.step (loop_op hcode hc) (by simp) fun _ => by
      rw [List.length_cons]; omega⟩
  | @name ts r s hs h hr ih =>
    obtain ⟨n, rfl⟩ : ∃ k, n = k + 1 := ⟨n - 1, by omega⟩
    rw [List.append_assoc] at hcode
    have hpos := List.length_pos_iff.mpr hs.ne_nil
    rw [List.length_append] at hn
    obtain ⟨j, h1, h2, h3⟩ := loop_bare n ret hs.solid hs.ne_nil
      (stops_append h hr (hstops post hp)) hcode
    have hname : bareTree s = .str s := by
      unfold bareTree
      cases hnum : strToNum s with
      | none => rfl
      | some b => exact absurd (isNumeral_of_strToNum hnum) hs.not_numeral
    rw [hname] at h3
    obtain ⟨q, hq, hrun⟩ := ih n j (ret ++ [.str s]) post hp h1 (by omega)
    refine ⟨_, hq.name, hrun.step h3 (by simp) fun h0 => ?_⟩
    rw [h2 (List.append_ne_nil_of_right_ne_nil _ h0), List.length_append]
    omega
  | @numeral ts r cs ds neg hs h0 h hr ih =>
    obtain ⟨n, rfl⟩ : ∃ k, n = k + 1 := ⟨n - 1, by omega⟩
    obtain ⟨b, hb, hval⟩ := strToNum_numeral neg hs h0
    have hsolid := solid_numeral neg hs
    have hne : (if neg then [45] else []) ++ cs ≠ [] := by
      refine List.append_ne_nil_of_right_ne_nil _ ?_
      rintro rfl
      exact h0 (List.length_eq_zero_iff.mp hs.length.symm)
    generalize (if neg then [45] else []) ++ cs = s at hcode hn hb hsolid hne
    rw [List.append_assoc] at hcode
    have hpos := List.length_pos_iff.mpr hne
    rw [List.length_append] at hn ⊢
    obtain ⟨j, h1, h2, h3⟩ := loop_bare n ret hsolid hne (stops_append h hr (hstops post hp))
      hcode
    have hnum : bareTree s = .num b := by rw [bareTree, hb]
    rw [hnum] at h3
    obtain ⟨q, hq, hrun⟩ := ih n j (ret ++ [.num b]) post hp h1 (by omega)
    refine ⟨_, hq.numeral hval, hrun.step h3 (by simp) fun h0 => ?_⟩
    rw [h2 (List.append_ne_nil_of_right_ne_nil _ h0)]
    omega
  | @quoted ts r s hs h ih =>
    obtain ⟨n, rfl⟩ : ∃ k, n = k + 1 := ⟨n - 1, by omega⟩
    have hcode' : code.drop i = 39 :: s ++ 39 :: (r ++ post) := by simpa using hcode
    have hlen : (39 :: s ++ 39 :: r).length = s.length + r.length + 2 := by
      simp
      omega
    rw [hlen] at hn ⊢
    obtain ⟨h1, h2⟩ := loop_quoted n ret hs hcode'
    obtain ⟨q, hq, hrun⟩ := ih n _ (ret ++ [.str s]) post hp h1 (by omega)
    exact ⟨_, hq.quoted, hrun.step h2 (by simp) fun _ => by omega⟩
  | @list ts us r q hq h ihq ih =>
    obtain ⟨n, rfl⟩ : ∃ k, n = k + 1 := ⟨n - 1, by omega⟩
    have hcode' : code.drop i = 91 :: q ++ 93 :: (r ++ post) := by simpa using hcode
    have hlen : (91 :: q ++ 93 :: r).length = q.length + r.length + 2 := by
      simp
      omega
    rw [hlen] at hn ⊢
    -- the block, and what comes after it
    obtain ⟨p, hp', hrun'⟩ := ihq n (i + 1) [] (93 :: (r ++ post)) (.inr ⟨_, rfl⟩)
      (drop_cons hcode').2.2.1 (by omega)
    obtain ⟨h1, h2⟩ := loop_list ret hcode' (hrun'.2 (List.cons_ne_nil _ _))
    obtain ⟨t, ht, hrun⟩ := ih n _ (ret ++ [.arr p]) post hp h1 (by omega)
    exact ⟨_, .list hp' ht, hrun.step h2 (by simp) fun _ => by omega⟩

/-- **The reader** gives back the tokens from every text that they are written down as. -/
theorem tokenize_renders {ts : List Token} {code : List ℕ} (h : Renders ts code) :
    ∃ q, tokenize code = some q ∧ Reads ts q := by
  obtain ⟨q, hq, hrun⟩ := loop_spec h (code.length + 1) 0 [] [] (.inl rfl)
    (by simp : code.drop 0 = code ++ []) (by omega)
  obtain ⟨j, hj⟩ := hrun.1 rfl
  exact ⟨q, by rw [tokenize, hj]; rfl, hq⟩

/-- The program `:[x -1F]`. -/
theorem tokenize_renders_call : ∃ q, tokenize [58, 91, 120, 32, 45, 49, 70, 93] = some q ∧
    Reads [.op 58, .list [.name [120], .numeral true [49, 70]]] q := by
  have hname : IsName [120] := by
    refine ⟨by simp, ?_, ?_⟩
    · unfold Delim
      decide
    · rintro ⟨cs, ds, -, hs, h | h⟩
      · rw [← h] at hs
        obtain ⟨d, ds, rfl⟩ := List.exists_cons_of_length_pos
          (by rw [← hs.length]; decide : 0 < ds.length)
        exact absurd (List.cons.inj hs).1 (by simp [digitOf])
      · exact absurd (List.cons.inj h).1 (by decide)
  have hspells : Spells [49, 70] [1, 15] := by
    unfold Spells
    decide
  have h1 : Renders [.numeral true [49, 70]] [45, 49, 70] :=
    .numeral hspells (by simp) .nil (by simp [Spaced])
  have h2 : Renders [.name [120], .numeral true [49, 70]] [120, 32, 45, 49, 70] :=
    .name hname (.ws (by decide) h1) (by
      rintro t - -
      exact ⟨32, _, rfl, by decide⟩)
  have h3 : Renders [.list [.name [120], .numeral true [49, 70]]]
      [91, 120, 32, 45, 49, 70, 93] := .list h2 .nil
  exact tokenize_renders (.op (by decide) h3)

end LispMachine.ReaderRound
