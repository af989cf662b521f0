import LispMachine.Collect
import LispMachine.Lib.Marking
import Mathlib.Data.Nat.Bitwise

/-!
The marks of the collector: visiting and unvisiting.
-/

namespace LispMachine.CollectMark

open LispMachine.Memory LispMachine.Collect LispMachine.Lib.BalTree LispMachine.Lib.Marking
open LispMachine.Object (Types)
open LispMachine.Store (Obj isType objEq)

/-! ### The counts -/

/-- A word with this count, this temporary count and this mark. -/
structure Word (w rc tmp : ℕ) (v : Prop) : Prop where
  lt : w < wordMod
  rc : getRc w = rc
  tmp : getTmpRc w = tmp % 2 ^ 31
  vis : visited w = true ↔ v

section Word

variable {w rc tmp val : ℕ} {v : Prop}

lemma testBit_wshl (x n i : ℕ) :
    (wshl x n).testBit i = (decide (i < 64) && (decide (n ≤ i) && x.testBit (i - n))) := by
  rw [wshl, wordMod, Nat.testBit_mod_two_pow, Nat.testBit_shiftLeft]

lemma getRc_eq : getRc w = w % 2 ^ 32 := Nat.and_two_pow_sub_one_eq_mod w 32

lemma getTmpRc_testBit (i : ℕ) :
    (getTmpRc w).testBit i = (w.testBit (32 + i) && decide (i < 31)) := by
  have hmask : wnot visitedMask = 2 ^ 63 - 1 := by decide
  rw [getTmpRc, Nat.testBit_shiftRight, hmask, Nat.testBit_and, Nat.testBit_two_pow_sub_one]
  congr 2
  simp only [eq_iff_iff]
  omega

lemma visited_eq : visited w = w.testBit 63 := by
  have h : w &&& visitedMask = (w.testBit 63).toNat * 2 ^ 63 := Nat.and_two_pow w 63
  rw [visited, h]
  cases w.testBit 63 <;> simp

lemma testBit_setTmpRc (i : ℕ) : (setTmpRc w val).testBit i =
    (w.testBit i && (decide (i < 32) || decide (i = 63)) ||
      (decide (i < 64) && (decide (32 ≤ i) && val.testBit (i - 32)))) := by
  have hmask : refcountMask = 2 ^ 32 - 1 := by decide
  rw [setTmpRc, Nat.testBit_or, Nat.testBit_and, Nat.testBit_or, testBit_wshl, hmask,
    Nat.testBit_two_pow_sub_one, visitedMask, Nat.testBit_two_pow]
  simp only [eq_comm]

lemma testBit_setVisited (i : ℕ) : (setVisited w val).testBit i =
    (w.testBit i && decide (i < 63) ||
      (decide (i < 64) && (decide (63 ≤ i) && val.testBit (i - 63)))) := by
  have hmask : (wordMod - 1) >>> 1 = 2 ^ 63 - 1 := by decide
  rw [setVisited, Nat.testBit_or, Nat.testBit_and, testBit_wshl, hmask,
    Nat.testBit_two_pow_sub_one]

lemma lt_wordMod (h : ∀ i, 64 ≤ i → w.testBit i = false) : w < wordMod :=
  Nat.lt_pow_two_of_testBit w h

lemma Word.congr {tmp' : ℕ} {v' : Prop} (h : Word w rc tmp v) (ht : tmp % 2 ^ 31 = tmp' % 2 ^ 31)
    (hv : v ↔ v') : Word w rc tmp' v' := ⟨h.lt, h.rc, h.tmp.trans ht, h.vis.trans hv⟩

variable (val) in
/-- A mark is kept when there is one, or when the temporary count has room. -/
lemma Word.setTmpRc (h : Word w rc tmp v) (hv : v ∨ val < 2 ^ 31) :
    Word (setTmpRc w val) rc val v := by
  refine ⟨lt_wordMod fun i hi => ?_, ?_, ?_, ?_⟩
  · rw [testBit_setTmpRc]
    simp [show ¬ i < 32 by omega, show i ≠ 63 by omega, show ¬ i < 64 by omega]
  · rw [← h.rc, getRc_eq, getRc_eq]
    refine Nat.eq_of_testBit_eq fun i => ?_
    simp only [Nat.testBit_mod_two_pow, testBit_setTmpRc]
    by_cases hi : i < 32
    · simp [hi, show ¬ 32 ≤ i by omega]
    · simp [hi]
  · refine Nat.eq_of_testBit_eq fun i => ?_
    rw [getTmpRc_testBit, testBit_setTmpRc, Nat.testBit_mod_two_pow]
    by_cases hi : i < 31
    · simp [hi, show 32 + i < 64 by omega, show 32 + i ≠ 63 by omega]
    · simp [hi]
  · rw [← h.vis, visited_eq, visited_eq, testBit_setTmpRc]
    rcases hv with hv | hv
    · have h1 : w.testBit 63 = true := visited_eq ▸ h.vis.2 hv
      simp [h1]
    · have h1 : val.testBit 31 = false := Nat.testBit_lt_two_pow hv
      simp [h1]

lemma Word.setVisited (h : Word w rc tmp v) (b : Bool) :
    Word (setVisited w b.toNat) rc tmp (b = true) := by
  refine ⟨lt_wordMod fun i hi => ?_, ?_, ?_, ?_⟩
  · rw [testBit_setVisited]
    simp [show ¬ i < 63 by omega, show ¬ i < 64 by omega]
  · rw [← h.rc, getRc_eq, getRc_eq]
    refine Nat.eq_of_testBit_eq fun i => ?_
    simp only [Nat.testBit_mod_two_pow, testBit_setVisited]
    by_cases hi : i < 32
    · simp [hi, show i < 63 by omega, show ¬ 63 ≤ i by omega]
    · simp [hi]
  · rw [← h.tmp]
    refine Nat.eq_of_testBit_eq fun i => ?_
    rw [getTmpRc_testBit, getTmpRc_testBit, testBit_setVisited]
    by_cases hi : i < 31
    · simp [hi, show 32 + i < 63 by omega, show ¬ 63 ≤ 32 + i by omega]
    · simp [hi]
  · rw [visited_eq, testBit_setVisited]
    cases b <;> simp

/-- A reference is dropped. -/
lemma Word.pred (h : Word w (rc + 1) tmp v) : Word (wsub w 1) rc tmp v := by
  have h1 := h.rc
  have hlt := h.lt
  rw [getRc_eq] at h1
  have hsub : wsub w 1 = w - 1 := wsub_eq (by omega) hlt
  have hdiv : (w - 1) / 2 ^ 32 = w / 2 ^ 32 := by omega
  have hbit (i : ℕ) : (w - 1).testBit (32 + i) = w.testBit (32 + i) := by
    rw [← Nat.testBit_shiftRight, ← Nat.testBit_shiftRight, Nat.shiftRight_eq_div_pow,
      Nat.shiftRight_eq_div_pow, hdiv]
  rw [hsub]
  refine ⟨by omega, by rw [getRc_eq]; omega, ?_, ?_⟩
  · rw [← h.tmp]
    refine Nat.eq_of_testBit_eq fun i => ?_
    rw [getTmpRc_testBit, getTmpRc_testBit, hbit]
  · rw [← h.vis, visited_eq, visited_eq]
    exact iff_of_eq (congrArg (· = true) (hbit 31))

/-- A count and nothing else -/
lemma word_clear (h : w < 2 ^ 32) : Word w w 0 False := by
  have hbit (i : ℕ) : w.testBit (32 + i) = false :=
    Nat.testBit_lt_two_pow (h.trans_le (Nat.pow_le_pow_right (by decide) (by omega)))
  refine ⟨h.trans (by decide), ?_, ?_, ?_⟩
  · rw [getRc_eq, Nat.mod_eq_of_lt h]
  · refine Nat.eq_of_testBit_eq fun i => ?_
    rw [getTmpRc_testBit, hbit]
    simp
  · rw [visited_eq, show (63 : ℕ) = 32 + 31 from rfl, hbit]
    simp

/-- Without a mark and a temporary count, the word is the count. -/
lemma Word.eq_rc (h : Word w rc tmp v) (ht : tmp % 2 ^ 31 = 0) (hv : ¬ v) : w = rc := by
  rw [← h.rc, getRc_eq]
  refine Nat.eq_of_testBit_eq fun i => ?_
  rw [Nat.testBit_mod_two_pow]
  by_cases hi : i < 32
  · simp [hi]
  · have h63 : w.testBit 63 = false := by
      rw [← visited_eq, Bool.eq_false_iff]
      exact fun h' => hv (h.vis.1 h')
    have htmp := getTmpRc_testBit (w := w) (i - 32)
    rw [h.tmp, ht, Nat.zero_testBit, show 32 + (i - 32) = i by omega] at htmp
    have hbit : w.testBit i = false := by
      rcases lt_trichotomy i 63 with hlt | rfl | hgt
      · simpa [show i - 32 < 31 by omega] using htmp.symm
      · exact h63
      · exact Nat.testBit_lt_two_pow (h.lt.trans_le (Nat.pow_le_pow_right (by decide) (by omega)))
    simp [hi, hbit]

end Word

/-! ### What objects refer to -/

/-- An object without its counts -/
def uncounted (o : Obj) : Obj := { o with refcount := 0 }

variable (ty : Types)

/-- What the contents of an object refer to, null pointers included. -/
def refsOf (s : St) (o : Obj) : Option (List ℕ) :=
  (kindOf ty s.toSt o).bind fun
    | .leaf => some []
    | .tree => (s.treeAt (o.contents 0)).map preorder
    | .items => some o.words
    | .array => some [o.contents 0]
    | .other => some []

/-- The references that the contents of an object hold. -/
def kidsOf (s : St) (a : ℕ) : List ℕ :=
  (((s.objs a).bind (refsOf ty s)).getD []).filter (· ≠ 0)

/-- The objects in `A` hold the references `kids`, to each other. -/
def Heap (kids : ℕ → List ℕ) (A : Finset ℕ) (s : St) : Prop :=
  ∀ a ∈ A, ∃ o l, s.objs a = some o ∧ refsOf ty s o = some l ∧ l.filter (· ≠ 0) = kids a ∧
    ∀ b ∈ kids a, b ∈ A

/-- Two states with objects that differ in their counts. -/
structure Same (s s' : St) : Prop where
  objs : ∀ a, (s'.objs a).map uncounted = (s.objs a).map uncounted
  next : s'.next = s.next
  trees : s'.trees = s.trees
  gcSet : s'.gcSet = s.gcSet
  gcNumAlloced : s'.gcNumAlloced = s.gcNumAlloced

section Same

variable {ty} {s s' s'' : St} {o o' : Obj} {a w : ℕ} {kids : ℕ → List ℕ} {A : Finset ℕ}

namespace Same

lemma refl (s : St) : Same s s := ⟨fun _ => rfl, rfl, rfl, rfl, rfl⟩

lemma trans (h : Same s s') (h' : Same s' s'') : Same s s'' :=
  ⟨fun a => (h'.objs a).trans (h.objs a), h'.next.trans h.next, h'.trees.trans h.trees,
    h'.gcSet.trans h.gcSet, h'.gcNumAlloced.trans h.gcNumAlloced⟩

lemma symm (h : Same s s') : Same s' s :=
  ⟨fun a => (h.objs a).symm, h.next.symm, h.trees.symm, h.gcSet.symm, h.gcNumAlloced.symm⟩

lemma get (h : Same s s') (ho : s.objs a = some o) :
    ∃ o', s'.objs a = some o' ∧ uncounted o' = uncounted o := by
  have h' := h.objs a
  rw [ho, Option.map_some, Option.map_eq_some_iff] at h'
  exact h'

end Same

lemma uncounted_iff : uncounted o' = uncounted o ↔
    o'.type = o.type ∧ o'.size = o.size ∧ o'.contents = o.contents := by simp [uncounted]

lemma words_congr (h : uncounted o' = uncounted o) : o'.words = o.words := by
  obtain ⟨-, hsize, hcontents⟩ := uncounted_iff.1 h
  rw [Obj.words, hsize, hcontents, ← Obj.words]

lemma words_append (o : Obj) (w : ℕ) :
    Obj.words { o.setWord o.size w with size := o.size + 1 } = o.words ++ [w] := by
  simp only [Obj.words, Obj.setWord, List.range_succ, List.map_append, List.map_cons, List.map_nil,
    Function.update_self]
  congr 1
  refine List.map_congr_left fun i hi => Function.update_of_ne ?_ ..
  exact (List.mem_range.1 hi).ne

lemma objEq_congr {t t' : Store.St} {a b : ℕ}
    (ha : (t'.objs a).map uncounted = (t.objs a).map uncounted)
    (hb : (t'.objs b).map uncounted = (t.objs b).map uncounted) : objEq t' a b = objEq t a b := by
  have hw {a : ℕ} (h : (t'.objs a).map uncounted = (t.objs a).map uncounted) :
      (t'.objs a).map Obj.words = (t.objs a).map Obj.words := by
    cases h1 : t'.objs a with
    | none => cases h2 : t.objs a <;> simp_all
    | some o' =>
      cases h2 : t.objs a with
      | none => simp_all
      | some o =>
        rw [h1, h2] at h
        exact congrArg some (words_congr (Option.some.inj h))
  have heq (s : Store.St) (a b : ℕ) : objEq s a b =
      ((s.objs a).map Obj.words).bind fun ws => ((s.objs b).map Obj.words).map fun ws' =>
        decide (ws = ws') := by
    unfold objEq
    cases s.objs a <;> cases s.objs b <;> rfl
  rw [heq, heq, hw ha, hw hb]

lemma uncounted_put {t : Store.St} {a : ℕ} (ho : t.objs a = some o) (w b : ℕ) :
    ((t.put a { o with refcount := w }).objs b).map uncounted = (t.objs b).map uncounted := by
  by_cases hb : b = a
  · subst hb
    simp [Store.St.put, ho, uncounted]
  · simp [Store.St.put, hb]

/-- The kind depends on the type of the object and on the types that there are. -/
lemma kindFrom_congr {α : Type} {k₀ : α} (ho : uncounted o' = uncounted o)
    (ht : (s'.objs o.type).map uncounted = (s.objs o.type).map uncounted) {l : List (ℕ × α)}
    (h : ∀ p ∈ l, (s'.objs p.1).map uncounted = (s.objs p.1).map uncounted) :
    kindFrom k₀ s'.toSt o' l = kindFrom k₀ s.toSt o l := by
  induction l with
  | nil => rfl
  | cons x l ih =>
    rw [kindFrom, kindFrom, isType, isType, (uncounted_iff.1 ho).1,
      objEq_congr ht (h x List.mem_cons_self), ih fun p hp => h p (List.mem_cons_of_mem _ hp)]

lemma kindOf_congr (ho : uncounted o' = uncounted o)
    (ht : (s'.objs o.type).map uncounted = (s.objs o.type).map uncounted)
    (h : ∀ p ∈ kinds ty, (s'.objs p.1).map uncounted = (s.objs p.1).map uncounted) :
    kindOf ty s'.toSt o' = kindOf ty s.toSt o := kindFrom_congr ho ht h

lemma treeAt_congr {x : ℕ} (h : x ≠ 0 → s'.trees x = s.trees x) : s'.treeAt x = s.treeAt x := by
  unfold St.treeAt
  split_ifs with hx
  · rfl
  · exact h hx

/-- The references depend on the kind, and those of a set on its tree. -/
lemma refsOf_eq (ho : uncounted o' = uncounted o) (hk : kindOf ty s'.toSt o' = kindOf ty s.toSt o)
    (ht : kindOf ty s.toSt o = some .tree →
      s'.treeAt (o.contents 0) = s.treeAt (o.contents 0)) : refsOf ty s' o' = refsOf ty s o := by
  rw [refsOf, refsOf, hk, words_congr ho, (uncounted_iff.1 ho).2.2]
  cases hkind : kindOf ty s.toSt o with
  | none => rfl
  | some k =>
    cases k with
    | tree => simp only [Option.bind_some, ht hkind]
    | _ => rfl

lemma refsOf_congr (h : Same s s') (ho : uncounted o' = uncounted o) :
    refsOf ty s' o' = refsOf ty s o :=
  refsOf_eq ho (kindOf_congr ho (h.objs _) fun p _ => h.objs p.1) fun _ =>
    treeAt_congr fun _ => congrFun h.trees _

lemma Heap.same (hs : Heap ty kids A s) (h : Same s s') : Heap ty kids A s' := by
  intro a ha
  obtain ⟨o, l, ho, hl, hk⟩ := hs a ha
  obtain ⟨o', ho', heq⟩ := h.get ho
  exact ⟨o', l, ho', (refsOf_congr h heq).trans hl, hk⟩

lemma setRefcount_eq (ho : s.objs a = some o) : s.setRefcount a w =
    some { s with toSt := s.toSt.put a { o with refcount := w } } := by
  rw [St.setRefcount, ho, Option.map_some]

/-- The word of one object is written. -/
lemma same_put (ho : s.objs a = some o) :
    Same s { s with toSt := s.toSt.put a { o with refcount := w } } :=
  ⟨uncounted_put ho w, rfl, rfl, rfl, rfl⟩

end Same

/-! ### Walks -/

/-- A state on the way from `s₀`: the objects in `A` can be read, and the counts of those in `L` are
known. -/
structure At (kids : ℕ → List ℕ) (A L : Finset ℕ) (rc : ℕ → ℕ) (s₀ : St) (M : Marks ℕ) (s : St) :
    Prop where
  heap : Heap ty kids A s
  sub : A ⊆ L
  counts : ∀ a ∈ L, ∃ o, s.objs a = some o ∧ Word o.refcount (rc a) (M.tmp a) (a ∈ M.vis)
  same : Same s₀ s

/-- A way to go through a graph: what happens when the elements of a list are met, and how much
there is left to do. -/
structure Walk where
  Step : List ℕ → Marks ℕ → Marks ℕ → Prop
  left : Marks ℕ → ℕ
  nil : ∀ M, Step [] M M
  append : ∀ {l₁ l₂ M M₁ M'}, Step l₁ M M₁ → Step l₂ M₁ M' → Step (l₁ ++ l₂) M M'
  le : ∀ {l M M'}, Step l M M' → left M' ≤ left M

variable {ty} {kids : ℕ → List ℕ} {A L : Finset ℕ} {rc : ℕ → ℕ} {s₀ s s' : St} {M M' : Marks ℕ}
  {W : Walk} {n : ℕ} {l l₁ l₂ : List ℕ} {f g : St × List ℕ → Option (St × List ℕ)} {o : Obj}
  {a v w obj : ℕ} {mark : St × List ℕ → ℕ → Option (St × List ℕ)}

/-- The word of one object is written. -/
lemma At.put (h : At ty kids A L rc s₀ M s) (ho : s.objs a = some o)
    (hw : Word w (rc a) (M'.tmp a) (a ∈ M'.vis))
    (hM : ∀ b ≠ a, M'.tmp b = M.tmp b ∧ (b ∈ M'.vis ↔ b ∈ M.vis)) :
    At ty kids A L rc s₀ M' { s with toSt := s.toSt.put a { o with refcount := w } } := by
  refine ⟨h.heap.same (same_put ho), h.sub, fun b hb => ?_, h.same.trans (same_put ho)⟩
  by_cases hba : b = a
  · subst hba
    exact ⟨{ o with refcount := w }, Function.update_self .., hw⟩
  · obtain ⟨o', ho', hw'⟩ := h.counts b hb
    obtain ⟨htmp, hvis⟩ := hM b hba
    exact ⟨o', (Function.update_of_ne hba ..).trans ho', hw'.congr (by rw [htmp]) hvis.symm⟩

variable (ty kids A L rc s₀ W n) in
/-- A computation meets the elements of a list, null pointers left out, when there is less than `n`
left to do. -/
def Does (l : List ℕ) (f : St × List ℕ → Option (St × List ℕ)) : Prop :=
  ∀ s M, At ty kids A L rc s₀ M s → W.left M < n → ∃ s' M', f (s, M.work) = some (s', M'.work) ∧
    At ty kids A L rc s₀ M' s' ∧ W.Step (l.filter (· ≠ 0)) M M'

namespace Does

lemma nil : Does ty kids A L rc s₀ W n [] some := fun s M h _ => ⟨s, M, rfl, h, W.nil M⟩

lemma bind (hf : Does ty kids A L rc s₀ W n l₁ f) (hg : Does ty kids A L rc s₀ W n l₂ g) :
    Does ty kids A L rc s₀ W n (l₁ ++ l₂) fun w => (f w).bind g := by
  intro s M h hn
  obtain ⟨s₁, M₁, hf₁, h₁, hs₁⟩ := hf s M h hn
  obtain ⟨s', M', hg', h', hs'⟩ := hg s₁ M₁ h₁ ((W.le hs₁).trans_lt hn)
  refine ⟨s', M', (congrArg (Option.bind · g) hf₁).trans hg', h', ?_⟩
  rw [List.filter_append]
  exact W.append hs₁ hs'

lemma tree {t : BTree ℕ} (hm : ∀ v ∈ preorder t, Does ty kids A L rc s₀ W n [v] (mark · v)) :
    Does ty kids A L rc s₀ W n (preorder t) (markTcTr mark t) := by
  induction t with
  | nil => exact nil
  | node b left data right ihl ihr =>
    simp only [preorder, List.mem_cons, List.mem_append] at hm
    exact (hm data (.inl rfl)).bind
      ((ihl fun v hv => hm v (.inr (.inl hv))).bind (ihr fun v hv => hm v (.inr (.inr hv))))

lemma items (ho : s₀.objs obj = some o) {k i : ℕ}
    (hm : ∀ j < k, Does ty kids A L rc s₀ W n [o.contents (i + j)] (mark · (o.contents (i + j)))) :
    Does ty kids A L rc s₀ W n ((List.range' i k).map o.contents) (markItems mark obj k i) := by
  induction k generalizing i with
  | zero => exact nil
  | succ k ih =>
    have hrest := ih (i := i + 1) fun j hj => by
      rw [Nat.add_assoc, Nat.add_comm 1]
      exact hm (j + 1) (by omega)
    intro s M h hn
    obtain ⟨o', ho', heq⟩ := h.same.get ho
    have hcontents := (uncounted_iff.1 heq).2.2
    obtain ⟨s', M', hf, h', hs'⟩ := (hm 0 (by omega)).bind hrest s M h hn
    refine ⟨s', M', ?_, h', ?_⟩
    · rw [markItems, ho', Option.bind_some, hcontents]
      exact hf
    · simpa [List.range'_succ] using hs'

/-- What the contents of an object refer to is met. -/
lemma contents (hm : ∀ v, v = 0 ∨ v ∈ A → Does ty kids A L rc s₀ W n [v] (mark · v))
    (hobj : obj ∈ A) (h : At ty kids A L rc s₀ M s) (hn : W.left M < n) {o₁ : Obj}
    (ho₁ : s.objs obj = some o₁) (heq : uncounted o = uncounted o₁) :
    ∃ s' M', markContents ty mark obj o (s, M.work) = some (s', M'.work) ∧
      At ty kids A L rc s₀ M' s' ∧ W.Step (kids obj) M M' := by
  obtain ⟨o₂, l, ho₂, hl, hkids, hA⟩ := h.heap obj hobj
  obtain rfl : o₁ = o₂ := Option.some.inj (ho₁.symm.trans ho₂)
  rw [← refsOf_congr (.refl s) heq, refsOf, Option.bind_eq_some_iff] at hl
  obtain ⟨k, hk, hl⟩ := hl
  have hml : ∀ v ∈ l, Does ty kids A L rc s₀ W n [v] (mark · v) := fun v hv => hm v <| by
    by_cases hv0 : v = 0
    · exact .inl hv0
    · exact .inr (hA v (hkids ▸ List.mem_filter.2 ⟨hv, by simpa using hv0⟩))
  have hrun {f : St × List ℕ → Option (St × List ℕ)} (hf : Does ty kids A L rc s₀ W n l f)
      (he : markContents ty mark obj o (s, M.work) = f (s, M.work)) :
      ∃ s' M', markContents ty mark obj o (s, M.work) = some (s', M'.work) ∧
        At ty kids A L rc s₀ M' s' ∧ W.Step (kids obj) M M' := by
    rw [he, ← hkids]
    exact hf s M h hn
  have he : markContents ty mark obj o (s, M.work) = _ := congrArg (Option.bind · _) hk
  rw [Option.bind_some] at he
  cases k with
  | leaf =>
    obtain rfl := Option.some.inj hl
    exact hrun nil he
  | tree =>
    obtain ⟨t, ht, rfl⟩ := Option.map_eq_some_iff.1 hl
    exact hrun (tree hml) (he.trans (congrArg (Option.bind · _) ht))
  | items =>
    obtain rfl := Option.some.inj hl
    obtain ⟨o₀, ho₀, heq₀⟩ := h.same.symm.get ho₁
    have hcontents : o.contents = o₀.contents := (uncounted_iff.1 (heq.trans heq₀.symm)).2.2
    refine hrun (f := markItems mark obj o.size 0) ?_ he
    have hwords : o.words = (List.range' 0 o.size).map o₀.contents := by
      rw [Obj.words, hcontents, List.range_eq_range']
    rw [hwords]
    refine items ho₀ fun j hj => ?_
    rw [← hcontents, Nat.zero_add]
    exact hml _ (List.mem_map.2 ⟨j, List.mem_range.2 hj, rfl⟩)
  | array =>
    obtain rfl := Option.some.inj hl
    exact hrun (f := (mark · (o.contents 0))) (hml _ (List.mem_singleton_self _)) he
  | other =>
    obtain rfl := Option.some.inj hl
    exact hrun nil he

end Does

/-! ### Visiting and unvisiting -/

section Walks

open Classical in
/-- What is not visited yet is left. -/
noncomputable def visiting (kids : ℕ → List ℕ) (A : Finset ℕ) : Walk where
  Step l M M' := ∃ N, Visited kids l M M' N
  left M := (A.filter (· ∉ M.vis)).card
  nil M := ⟨∅, .nil M⟩
  append := fun ⟨_, h₁⟩ ⟨_, h₂⟩ => ⟨_, h₁.append h₂⟩
  le := fun ⟨_, h⟩ => Finset.card_le_card <|
    Finset.monotone_filter_right _ fun _ _ hu hv => hu (h.subset hv)

open Classical in
/-- What is still visited is left. -/
noncomputable def unvisiting (kids : ℕ → List ℕ) (A : Finset ℕ) : Walk where
  Step l M M' := ∃ D, Unvisited kids l M M' D
  left M := (A.filter (· ∈ M.vis)).card
  nil M := ⟨∅, .nil M⟩
  append := fun ⟨_, h₁⟩ ⟨_, h₂⟩ => ⟨_, h₁.append h₂⟩
  le := fun ⟨_, h⟩ => Finset.card_le_card <|
    Finset.monotone_filter_right _ fun _ _ hu => (h.mem_vis.1 hu).1

open Classical in
lemma visiting_left : (visiting kids A).left M ≤ A.card := Finset.card_filter_le ..

open Classical in
lemma unvisiting_left : (unvisiting kids A).left M ≤ A.card := Finset.card_filter_le ..

lemma left_enter (hv : v ∈ A) (h : v ∉ M.vis) :
    (visiting kids A).left (Visited.enter v M) < (visiting kids A).left M := by
  classical
  refine Finset.card_lt_card (Finset.ssubset_iff_of_subset ?_ |>.2 ⟨v, ?_, ?_⟩)
  · exact Finset.monotone_filter_right _ fun _ _ hu hu' => hu (.inr hu')
  · exact Finset.mem_filter.2 ⟨hv, h⟩
  · exact fun hu => (Finset.mem_filter.1 hu).2 (.inl rfl)

lemma left_leave (hv : v ∈ A) (h : v ∈ M.vis) :
    (unvisiting kids A).left (Unvisited.leave v M) < (unvisiting kids A).left M := by
  classical
  refine Finset.card_lt_card (Finset.ssubset_iff_of_subset ?_ |>.2 ⟨v, ?_, ?_⟩)
  · exact Finset.monotone_filter_right _ fun _ _ hu => hu.1
  · exact Finset.mem_filter.2 ⟨hv, h⟩
  · exact fun hu => (Finset.mem_filter.1 hu).2.2 rfl

/-- What is visited already is counted. -/
lemma markTcObj_again (h : At ty kids A L rc s₀ M s) (hv : v ∈ L) (h0 : v ≠ 0)
    (hvis : v ∈ M.vis) : ∃ s', markTcObj ty true (n + 1) (s, M.work) v = some (s', M.work) ∧
      At ty kids A L rc s₀ { M with tmp := fun u => M.tmp u + [v].count u } s' := by
  obtain ⟨o, ho, hw⟩ := h.counts v hv
  have hword := hw.setTmpRc (getTmpRc o.refcount + 1) (.inl hvis)
  have hvisited : visited o.refcount = true := hw.vis.2 hvis
  refine ⟨_, ?_, h.put ho (hword.congr ?_ .rfl) fun b hb => ?_⟩
  · simp only [markTcObj, h0, if_false, ho, Option.bind_some, hvisited, Bool.true_and, if_true,
      setRefcount_eq ho, Option.map_some]
  · rw [hw.tmp]
    simp
  · simp [List.count_eq_zero.2, hb]

/-- **`_mark_tc`** visits. -/
lemma markTcObj_visits (n : ℕ) (v : ℕ) (hv : v = 0 ∨ v ∈ A) :
    Does ty kids A L rc s₀ (visiting kids A) n [v] (markTcObj ty true n · v) := by
  induction n generalizing v with
  | zero => exact fun s M _ hn => absurd hn (Nat.not_lt_zero _)
  | succ n ih =>
    intro s M h hn
    rcases Decidable.em (v = 0) with rfl | hv0
    · exact ⟨s, M, rfl, h, (visiting kids A).nil M⟩
    · have hvA := hv.resolve_left hv0
      have hone : [v].filter (· ≠ 0) = [v] := by simp [hv0]
      rw [hone]
      by_cases hvis : v ∈ M.vis
      · obtain ⟨s', hf, h'⟩ := markTcObj_again h (h.sub hvA) hv0 hvis
        exact ⟨s', { M with tmp := fun u => M.tmp u + [v].count u }, hf, h', ∅, .again hvis⟩
      · obtain ⟨o, ho, hw⟩ := h.counts v (h.sub hvA)
        simp only [markTcObj, hv0, if_false, ho, Option.bind_some, Bool.true_and, Bool.not_true,
          Bool.false_and, Bool.false_eq_true]
        rw [if_neg fun h' => hvis (hw.vis.1 h'), setRefcount_eq ho, Option.bind_some]
        have hword := (hw.setVisited true).setTmpRc 1 (.inl rfl)
        have htmp : (Visited.enter v M).tmp v = 1 := Function.update_self ..
        have hmem : v ∈ (Visited.enter v M).vis := .inl rfl
        have hat : At ty kids A L rc s₀ (Visited.enter v M) _ := h.put ho
          (hword.congr (by rw [htmp]) (by simp [hmem])) fun b hb => by simp [Visited.enter, hb]
        obtain ⟨s', M', hf, h', N, hN⟩ := Does.contents (fun u hu => ih u hu) hvA hat
          ((left_enter hvA hvis).trans_le (Nat.le_of_lt_succ hn)) (Function.update_self ..)
          (o := o) rfl
        exact ⟨s', M', hf, h', _, .node hvis hN⟩

/-- **`_mark_tc`** unvisits. -/
lemma markTcObj_unvisits (n : ℕ) (v : ℕ) (hv : v = 0 ∨ v ∈ A) :
    Does ty kids A L rc s₀ (unvisiting kids A) n [v] (markTcObj ty false n · v) := by
  induction n generalizing v with
  | zero => exact fun s M _ hn => absurd hn (Nat.not_lt_zero _)
  | succ n ih =>
    intro s M h hn
    rcases Decidable.em (v = 0) with rfl | hv0
    · exact ⟨s, M, rfl, h, (unvisiting kids A).nil M⟩
    · have hvA := hv.resolve_left hv0
      have hone : [v].filter (· ≠ 0) = [v] := by simp [hv0]
      obtain ⟨o, ho, hw⟩ := h.counts v (h.sub hvA)
      simp only [markTcObj, hv0, if_false, ho, Option.bind_some, Bool.false_and, Bool.not_false,
        Bool.true_and, Bool.false_eq_true, hone]
      by_cases hvis : v ∈ M.vis
      · have hvisited := hw.vis.2 hvis
        rw [hvisited, Bool.not_true, if_neg Bool.false_ne_true, setRefcount_eq ho,
          Option.bind_some]
        have hword := (hw.setVisited false).setTmpRc 0 (.inr (by decide))
        have htmp : (Unvisited.leave v M).tmp v = 0 := Function.update_self ..
        have hmem : v ∉ (Unvisited.leave v M).vis := fun h => h.2 rfl
        have hat : At ty kids A L rc s₀ (Unvisited.leave v M) _ := h.put ho
          (hword.congr (by rw [htmp]) (by simp [hmem])) fun b hb => by simp [Unvisited.leave, hb]
        obtain ⟨s', M', hf, h', N, hN⟩ := Does.contents (fun u hu => ih u hu) hvA hat
          ((left_leave hvA hvis).trans_le (Nat.le_of_lt_succ hn)) (Function.update_self ..)
          (o := o) rfl
        exact ⟨s', M', hf, h', _, .node hvis hN⟩
      · have hvisited : visited o.refcount = false :=
          Bool.eq_false_iff.2 fun h' => hvis (hw.vis.1 h')
        rw [hvisited, Bool.not_false, if_pos rfl]
        exact ⟨s, M, rfl, h, ∅, .again hvis⟩

/-- `mark_tc` takes back the reference that it starts with. -/
lemma markTc_uncount (hf : markTcObj ty true n (s, M.work) v = some (s', M'.work))
    (h' : At ty kids A L rc s₀ M' s') (hv : v ∈ L) (hmet : v ∈ M'.vis) (hpos : 1 ≤ M'.tmp v) :
    ∃ s'', markTc ty true n (s, M.work) v = some (s'', M'.work) ∧
      At ty kids A L rc s₀ { M' with tmp := Function.update M'.tmp v (M'.tmp v - 1) } s'' := by
  obtain ⟨o, ho, hw⟩ := h'.counts v hv
  have hword := hw.setTmpRc (wsub (getTmpRc o.refcount) 1) (.inl hmet)
  refine ⟨_, ?_, h'.put ho (hword.congr ?_ .rfl) fun b hb => ?_⟩
  · simp only [markTc, hf, Option.bind_some, if_true, ho, setRefcount_eq ho, Option.map_some]
  · have htmp : Function.update M'.tmp v (M'.tmp v - 1) v = M'.tmp v - 1 := Function.update_self ..
    change _ = Function.update M'.tmp v (M'.tmp v - 1) v % 2 ^ 31
    rw [hw.tmp, htmp, wsub, wordMod]
    omega
  · simp [hb]

/-- **`mark_tc`** visits, and does not count the reference that it starts with. -/
lemma markTc_visits (h : At ty kids A L rc s₀ M s) (hv : v ∈ A) (h0 : v ≠ 0)
    (hn : (visiting kids A).left M < n) : ∃ s' M' N,
    markTc ty true n (s, M.work) v = some (s', M'.work) ∧ Visited kids [v] M M' N ∧
      At ty kids A L rc s₀ { M' with tmp := Function.update M'.tmp v (M'.tmp v - 1) } s' := by
  obtain ⟨s₁, M', hf, h', N, hN⟩ := markTcObj_visits n v (.inr hv) s M h hn
  rw [List.filter_cons_of_pos (by simpa using h0), List.filter_nil] at hN
  have hpos : 1 ≤ M'.tmp v := by
    have htmp := hN.tmp v
    rw [List.count_singleton_self] at htmp
    omega
  obtain ⟨s', hf', hat⟩ := markTc_uncount hf h' (h.sub hv)
    (hN.met v (List.mem_singleton_self v)) hpos
  exact ⟨s', M', N, hf', hN, hat⟩

/-- `mark_tc` leaves the marks as they are when it starts from what is visited. -/
lemma markTc_again (h : At ty kids A L rc s₀ M s) (hv : v ∈ L) (h0 : v ≠ 0) (hvis : v ∈ M.vis) :
    ∃ s', markTc ty true (n + 1) (s, M.work) v = some (s', M.work) ∧ At ty kids A L rc s₀ M s' := by
  obtain ⟨s₁, hf, h₁⟩ := markTcObj_again (n := n) h hv h0 hvis
  obtain ⟨M₁, hM₁⟩ : ∃ M₁ : Marks ℕ, M₁ = { M with tmp := fun u => M.tmp u + [v].count u } :=
    ⟨_, rfl⟩
  have hwork : M₁.work = M.work := by rw [hM₁]
  have htmp (u : ℕ) : M₁.tmp u = M.tmp u + [v].count u := by rw [hM₁]
  have hvis₁ : M₁.vis = M.vis := by rw [hM₁]
  rw [← hM₁] at h₁
  rw [← hwork] at hf ⊢
  have hpos : 1 ≤ M₁.tmp v := by simp [htmp]
  obtain ⟨s', hf', h'⟩ := markTc_uncount hf h₁ hv (hvis₁ ▸ hvis) hpos
  refine ⟨s', hf', h'.heap, h'.sub, fun a ha => ?_, h'.same⟩
  obtain ⟨o, ho, hw⟩ := h'.counts a ha
  refine ⟨o, ho, hw.congr (congrArg (· % 2 ^ 31) ?_) (by rw [hvis₁])⟩
  by_cases hav : a = v
  · subst hav
    simp [htmp]
  · simp [htmp, hav, Ne.symm hav]

/-- The loop that pops the queue unvisits what is held. -/
lemma unmarkHeld_spec {q : List ℕ} (h : At ty kids A L rc s₀ M s) (hq : ∀ v ∈ q, v ∈ A ∧ v ≠ 0)
    (hn : (unvisiting kids A).left M < n) (hlt : ∀ v ∈ A, M.tmp v < 2 ^ 31) : ∃ s' M' D,
    unmarkHeld ty n q s = some s' ∧ At ty kids A L rc s₀ M' s' ∧ Rescued kids rc q M M' D := by
  induction q generalizing s M with
  | nil => exact ⟨s, M, ∅, rfl, h, .nil M⟩
  | cons v q ih =>
    obtain ⟨hv, hv0⟩ := hq v List.mem_cons_self
    have hq' : ∀ u ∈ q, u ∈ A ∧ u ≠ 0 := fun u hu => hq u (List.mem_cons_of_mem _ hu)
    obtain ⟨o, ho, hw⟩ := h.counts v (h.sub hv)
    have htmp : getTmpRc o.refcount = M.tmp v := hw.tmp.trans (Nat.mod_eq_of_lt (hlt v hv))
    simp only [unmarkHeld, ho, Option.bind_some, htmp, hw.rc]
    by_cases hheld : M.tmp v < rc v
    · rw [if_pos hheld]
      obtain ⟨s₁, M₁, hf, h₁, D₁, hD₁⟩ :=
        markTcObj_unvisits n v (.inr hv) s { M with work := q } ⟨h.heap, h.sub, h.counts, h.same⟩ hn
      rw [List.filter_cons_of_pos (by simpa using hv0), List.filter_nil] at hD₁
      have hn₁ : (unvisiting kids A).left M₁ < n := ((unvisiting kids A).le ⟨D₁, hD₁⟩).trans_lt hn
      have hlt₁ : ∀ u ∈ A, M₁.tmp u < 2 ^ 31 := fun u hu => by
        by_cases hD : u ∈ D₁
        · rw [hD₁.out u hD]
          decide
        · rw [hD₁.kept u hD]
          exact hlt u hu
      obtain ⟨s', M', D, hf', h', hD⟩ := ih h₁ hq' hn₁ hlt₁
      refine ⟨s', M', D₁ ∪ D, ?_, h', .cons hheld hD₁ hD⟩
      simp only [markTc, hf, Option.bind_some, Bool.false_eq_true, if_false]
      exact hf'
    · rw [if_neg hheld]
      obtain ⟨s', M', D, hf', h', hD⟩ := ih h hq' hn hlt
      exact ⟨s', M', D, hf', h', .skip (not_lt.1 hheld) hD⟩

end Walks

end LispMachine.CollectMark
