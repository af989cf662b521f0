import LispMachine.Interp

/-!
What a round of the evaluator does to the namespaces and to the frames.
-/

namespace LispMachine.InterpStep

open LispMachine.Interp

variable {ω : Type} {N : Native ω} {s s' : Store} {ns : Ns}

/-! ### The store -/

/-- The namespace of a function. -/
def nsOf (s : Store) (r : ℕ) : Option Ns :=
  match deref s r with
  | some (.fn ns _ _) => some ns
  | _ => none

lemma nsOf_fn {r args exp : ℕ} (h : deref s r = some (.fn ns args exp)) : nsOf s r = some ns := by
  rw [nsOf, h]

lemma deref_of_nsOf {r : ℕ} (h : nsOf s r = some ns) :
    ∃ args exp, deref s r = some (.fn ns args exp) := by
  unfold nsOf at h
  split at h
  · rename_i ns' args exp h1
    cases h
    exact ⟨args, exp, h1⟩
  · cases h

lemma elems_eq {a : ℕ} {xs : List ℕ} (h : elems s a = some xs) :
    deref s a = some (.arr (some xs)) := by
  unfold elems at h
  split at h
  · subst h
    assumption
  · cases h

lemma deref_alloc (s : Store) (o : Obj) (r : ℕ) :
    deref (alloc s o).1 r = if r = s.length + 1 then some o else deref s r := by
  cases r with
  | zero => simp [deref]
  | succ r =>
    rcases lt_trichotomy r s.length with h | h | h
    · rw [if_neg (by omega)]
      exact List.getElem?_append_left h
    · simp [deref, alloc, h]
    · rw [if_neg (by omega)]
      simp [deref, alloc, List.getElem?_append_right h.le, h.le, show r - s.length ≠ 0 by omega]

lemma deref_fresh (s : Store) : deref s (s.length + 1) = none := by
  simp [deref]

lemma deref_put {r a : ℕ} {o o' : Obj} (h : deref s a = some o) :
    deref (put s a o') r = if r = a then some o' else deref s r := by
  cases a with
  | zero => cases h
  | succ a =>
    have ha : a < s.length := by
      by_contra hlt
      rw [deref, List.getElem?_eq_none (by omega)] at h
      cases h
    cases r with
    | zero => simp [deref]
    | succ r =>
      by_cases hr : r = a
      · simp [deref, put, hr, ha]
      · rw [if_neg (by omega)]
        simp [deref, put, List.getElem?_set_ne (Ne.symm hr)]

lemma nsOf_alloc {o : Obj} (ho : ∀ ns args exp, o ≠ .fn ns args exp) :
    nsOf (alloc s o).1 = nsOf s := by
  ext1 r
  rw [nsOf, nsOf, deref_alloc]
  by_cases h : r = s.length + 1
  · rw [if_pos h, h, deref_fresh]
    cases o with
    | fn ns args exp => exact absurd rfl (ho ns args exp)
    | _ => rfl
  · rw [if_neg h]

lemma nsOf_put_arr {a : ℕ} {xs ys : Option (List ℕ)} (h : deref s a = some (.arr xs)) :
    nsOf (put s a (.arr ys)) = nsOf s := by
  ext1 r
  rw [nsOf, nsOf, deref_put h]
  by_cases hr : r = a
  · rw [if_pos hr, hr, h]
  · rw [if_neg hr]

lemma nsOf_alloc_fn (s : Store) (ns : Ns) (args exp : ℕ) :
    nsOf (alloc s (.fn ns args exp)).1 = Function.update (nsOf s) (s.length + 1) (some ns) := by
  ext1 r
  rw [nsOf, deref_alloc, Function.update_apply]
  by_cases h : r = s.length + 1
  · rw [if_pos h, if_pos h]
  · rw [if_neg h, if_neg h, nsOf]

lemma nsOf_put_fn {f : ℕ} {o : Obj} (h : deref s f = some o) (ns : Ns) (args exp : ℕ) :
    nsOf (put s f (.fn ns args exp)) = Function.update (nsOf s) f (some ns) := by
  ext1 r
  rw [nsOf, deref_put h, Function.update_apply]
  by_cases hr : r = f
  · rw [if_pos hr, if_pos hr]
  · rw [if_neg hr, if_neg hr, nsOf]

/-- The store grows, and all that is new in it is an array or a function. -/
structure Atoms (s s' : Store) : Prop where
  length_le : s.length ≤ s'.length
  old : ∀ r o, deref s' r = some o →
    deref s r = some o ∨ (∃ xs, o = .arr xs) ∨ ∃ ns a e, o = .fn ns a e

lemma Atoms.refl (s : Store) : Atoms s s := ⟨le_rfl, fun _ _ h => .inl h⟩

lemma Atoms.trans {s₁ s₂ s₃ : Store} (h : Atoms s₁ s₂) (h' : Atoms s₂ s₃) : Atoms s₁ s₃ := by
  refine ⟨h.length_le.trans h'.length_le, fun r o hr => ?_⟩
  rcases h'.old r o hr with h1 | h1
  · exact h.old r o h1
  · exact .inr h1

lemma Atoms.key (h : Atoms s s') {r a : ℕ} {ws : List ℕ}
    (hk : keyOf s' r = some (.words (a :: ws))) : keyOf s r = some (.words (a :: ws)) := by
  obtain ⟨o, hr, ho⟩ := Option.map_eq_some_iff.mp hk
  rcases h.old r o hr with h1 | ⟨xs, rfl⟩ | ⟨ns, args, exp, rfl⟩
  · rw [keyOf, h1, Option.map_some, ho]
  · cases ho
  · cases ho

lemma deref_isSome {r : ℕ} : deref s r ≠ none ↔ 0 < r ∧ r ≤ s.length := by
  cases r with
  | zero => simp [deref]
  | succ r =>
    rw [deref, ne_eq, List.getElem?_eq_none_iff]
    omega

lemma Atoms.deref (h : Atoms s s') {r : ℕ} (hr : deref s r ≠ none) : deref s' r ≠ none := by
  rw [deref_isSome] at hr ⊢
  exact ⟨hr.1, hr.2.trans h.length_le⟩

lemma atoms_alloc {o : Obj} (ho : (∃ xs, o = .arr xs) ∨ ∃ ns a e, o = .fn ns a e) :
    Atoms s (alloc s o).1 := by
  refine ⟨by simp [alloc], fun r o' hr => ?_⟩
  rw [deref_alloc] at hr
  split_ifs at hr
  · cases hr
    exact .inr ho
  · exact .inl hr

lemma atoms_put {a : ℕ} {o o' : Obj} (h : deref s a = some o)
    (ho : (∃ xs, o' = .arr xs) ∨ ∃ ns a e, o' = .fn ns a e) : Atoms s (put s a o') := by
  refine ⟨by simp [put], fun r o₁ hr => ?_⟩
  rw [deref_put h] at hr
  split_ifs at hr
  · cases hr
    exact .inr ho
  · exact .inl hr

/-! ### The operations -/

/-- What an append makes of the elements of an array. -/
def appended (xs : Option (List ℕ)) (r : ℕ) : Option (List ℕ) :=
  xs.bind fun xs => if r = 0 then none else some (xs ++ [r])

lemma objArrayAppend_iff {a r : ℕ} : objArrayAppend s a r = some s' ↔
    ∃ xs, deref s a = some (.arr xs) ∧ s' = put s a (.arr (appended xs r)) := by
  unfold objArrayAppend
  split
  · rename_i xs h
    simp [h, appended, eq_comm]
  · rename_i hno
    constructor
    · rintro ⟨⟩
    · rintro ⟨xs, h, -⟩
      exact absurd h (hno xs)

lemma objArrayAppend_spec {a r : ℕ} (h : objArrayAppend s a r = some s') :
    nsOf s' = nsOf s ∧ Atoms s s' := by
  obtain ⟨xs, ha, rfl⟩ := objArrayAppend_iff.mp h
  exact ⟨nsOf_put_arr ha, atoms_put ha (.inl ⟨_, rfl⟩)⟩

lemma setObjArrayIdx_spec {a i r : ℕ} (h : setObjArrayIdx s a i r = some s') :
    nsOf s' = nsOf s ∧ Atoms s s' := by
  obtain ⟨xs, h1, rfl⟩ := Option.map_eq_some_iff.mp h
  have ha := elems_eq h1
  exact ⟨nsOf_put_arr ha, atoms_put ha (.inl ⟨_, rfl⟩)⟩

/-- A key is bound behind `set_add_str_key` if it was bound or is the key that is added, and what
it is then bound to is an object or was there before. -/
lemma setAddStrKey_spec {ns' : Ns} {key : Option Key} {v : ℕ}
    (h : setAddStrKey s ns key v = some ns') (k : Key) :
    (ns' k = none ↔ ns k = none ∧ key ≠ some k) ∧
      ∀ p, ns' k = some p → ns k = some p ∨ deref s p ≠ none := by
  obtain ⟨k', rfl, h⟩ := Option.bind_eq_some_iff.mp h
  obtain ⟨o, hv, h⟩ := Option.map_eq_some_iff.mp h
  subst h
  cases hk : ns k' with
  | some v' =>
    refine ⟨⟨fun h => ⟨h, ?_⟩, And.left⟩, fun p => .inl⟩
    rintro ⟨⟩
    exact Option.some_ne_none _ (hk.symm.trans h)
  | none =>
    by_cases hkk : k = k'
    · subst hkk
      simp [hv]
    · simp [Function.update_of_ne hkk, Ne.symm hkk]
      exact fun p h => .inl h

lemma addArgs_spec {names xs : List ℕ} {ns' : Ns} (h : addArgs s names xs ns = some ns') (k : Key) :
    (ns' k = none ↔ ns k = none ∧ ∀ a ∈ names, keyOf s a ≠ some k) ∧
      ∀ p, ns' k = some p → ns k = some p ∨ deref s p ≠ none := by
  induction names generalizing xs ns with
  | nil =>
    cases h
    exact ⟨by simp, fun p => .inl⟩
  | cons a names ih =>
    cases xs with
    | nil => cases h
    | cons x xs =>
      obtain ⟨ns₁, h1, h2⟩ := Option.bind_eq_some_iff.mp h
      obtain ⟨h3, h4⟩ := setAddStrKey_spec h1 k
      obtain ⟨h5, h6⟩ := ih h2
      refine ⟨by rw [h5, h3, List.forall_mem_cons, and_assoc], fun p hp => ?_⟩
      rcases h6 p hp with h7 | h7
      · exact h4 p h7
      · exact .inr h7

/-- **`new_fn`** makes a function with no binding but that of `sup`. -/
lemma newFn_spec {p : Option ℕ} {args exp f : ℕ} (h : newFn s p args exp = some (s', f)) :
    ∃ ns, s' = s ++ [.fn ns args exp] ∧ f = s.length + 1 ∧ ns = Function.update (fun _ => none) sup p ∧
      ∀ q, p = some q → deref s q ≠ none := by
  obtain ⟨-, -, h⟩ := Option.bind_eq_some_iff.mp h
  obtain ⟨-, -, h⟩ := Option.bind_eq_some_iff.mp h
  obtain ⟨ns, h1, h2⟩ := Option.map_eq_some_iff.mp h
  cases h2
  refine ⟨ns, rfl, rfl, ?_⟩
  cases p with
  | none =>
    cases h1
    exact ⟨by simp, by simp⟩
  | some q =>
    obtain ⟨o, hq, h1⟩ := Option.map_eq_some_iff.mp h1
    exact ⟨h1.symm, by simp [hq]⟩

/-- **A call** makes one function, in which `sup` is bound as in the function called, or as a
parameter. -/
lemma callFrame_spec {args exp f : ℕ} {names xs : List ℕ}
    (h : callFrame s ns args exp names xs = some (s', f)) :
    ∃ tmpNs, f = s.length + 1 ∧ nsOf s' = Function.update (nsOf s) f (some tmpNs) ∧
      Atoms s s' ∧ (tmpNs sup = none ↔ ns sup = none ∧ ∀ a ∈ names, keyOf s a ≠ some sup) ∧
      ∀ p, tmpNs sup = some p → deref s p ≠ none := by
  obtain ⟨⟨s₁, f₁⟩, h1, h⟩ := Option.bind_eq_some_iff.mp h
  obtain ⟨ns₁, rfl, rfl, h2, h3⟩ := newFn_spec h1
  have hf : deref (s ++ [.fn ns₁ args exp]) (s.length + 1) = some (.fn ns₁ args exp) := by
    simp [deref]
  simp only [hf] at h
  obtain ⟨tmpNs, h4, h5⟩ := Option.map_eq_some_iff.mp h
  cases h5
  obtain ⟨h6, h7⟩ := addArgs_spec h4 sup
  have hsup : ns₁ sup = ns sup := by simp [h2]
  refine ⟨tmpNs, rfl, ?_, ?_, by rw [h6, hsup], fun p hp => ?_⟩
  · rw [nsOf_put_fn hf]
    have := nsOf_alloc_fn s ns₁ args exp
    rw [alloc] at this
    rw [this, Function.update_idem]
  · have h8 := atoms_alloc (s := s) (o := .fn ns₁ args exp) (.inr ⟨_, _, _, rfl⟩)
    exact h8.trans (atoms_put hf (.inr ⟨_, _, _, rfl⟩))
  · rcases h7 p hp with h8 | h8
    · exact h3 p (hsup ▸ h8)
    · exact h8

/-- **`del_fn`** succeeds if and only if `sup` is bound, and at most takes its binding away. -/
lemma delFn_spec {w : ω} {f : ℕ} (h : delFn N w s f = some s') :
    ∃ ns p, nsOf s f = some ns ∧ ns sup = some p ∧ Atoms s s' ∧
      (nsOf s' = nsOf s ∨
        nsOf s' = Function.update (nsOf s) f (some (setRemoveStrKey ns sup))) := by
  unfold delFn at h
  split at h
  · rename_i ns args exp hd
    split at h
    · cases h
    · rename_i p hp
      have hput := atoms_put hd (.inr ⟨setRemoveStrKey ns sup, 0, 0, rfl⟩)
      have hns := nsOf_put_fn hd (setRemoveStrKey ns sup) 0 0
      have hd' : deref (put s f (.fn (setRemoveStrKey ns sup) 0 0)) f =
          some (.fn (setRemoveStrKey ns sup) 0 0) := by
        rw [deref_put hd, if_pos rfl]
      refine ⟨ns, p, nsOf_fn hd, hp, ?_⟩
      simp only at h
      split at h
      · cases h
        exact ⟨hput, .inr hns⟩
      · obtain ⟨ns', h1, rfl⟩ := Option.map_eq_some_iff.mp h
        obtain ⟨o, -, rfl⟩ := Option.map_eq_some_iff.mp h1
        refine ⟨hput.trans (atoms_put hd' (.inr ⟨_, _, _, rfl⟩)), .inl ?_⟩
        rw [nsOf_put_fn hd', hns, Function.update_idem]
        have hback : Function.update (setRemoveStrKey ns sup) sup (some p) = ns := by
          rw [setRemoveStrKey, Function.update_idem, ← hp, Function.update_eq_self]
        simp only [setRemoveStrKey, Function.update_self] at hback ⊢
        rw [hback, ← nsOf_fn hd, Function.update_eq_self]
  · cases h

/-! ### A round -/

/-- The frame hands its expression to the assembler or to the machine. -/
def Runs (s : Store) (fr : Frame) : Prop :=
  fr.state = .ccf ∨ fr.state = .cf ∧
    ∃ f xs ws, elems s fr.exp = some (f :: xs) ∧ deref s f = some (.bcode ws)

/-- The frame calls a function with the namespace `ns` and the body `exp`, of as many parameters
`names` as there are arguments `xs`. -/
structure Calls (s : Store) (fr : Frame) (ns : Ns) (exp : ℕ) (names xs : List ℕ) : Prop where
  state : fr.state = .cf
  callee : ∃ g args, elems s fr.exp = some (g :: xs) ∧ deref s g = some (.fn ns args exp) ∧
    elems s args = some names
  arity : xs.length = names.length

lemma Calls.unique {fr : Frame} {ns' : Ns} {exp exp' : ℕ} {names names' xs xs' : List ℕ}
    (h : Calls s fr ns exp names xs) (h' : Calls s fr ns' exp' names' xs') :
    ns' = ns ∧ names' = names := by
  obtain ⟨-, ⟨g, args, h1, h2, h3⟩, -⟩ := h
  obtain ⟨-, ⟨g', args', h1', h2', h3'⟩, -⟩ := h'
  cases h1.symm.trans h1'
  cases h2.symm.trans h2'
  cases h3.symm.trans h3'
  exact ⟨rfl, rfl⟩

/-- A round that leaves the namespaces alone and stays inside the function. -/
def Quiet (c : Config ω) (fr : Frame) (rest : List Frame) (c' : Config ω) : Prop :=
  nsOf c'.store = nsOf c.store ∧ ∃ fs, c'.frames = fs ++ rest ∧
    ∀ f ∈ fs, f.self = fr.self ∧ f.state ≠ .cfRet ∧
      (f.state = .ccf → ∃ r, keyOf c.store r = some (.words [60]))

/-- What a round does to the namespaces and to the frames, when nothing else runs in it. -/
inductive Move (c : Config ω) (fr : Frame) (rest : List Frame) (c' : Config ω) : Prop
  | quiet (h : fr.state ≠ .cfRet) (h' : fr.state ≠ .nf) (hq : Quiet c fr rest c')
    (hcall : ∀ ns exp names xs, ¬ Calls c.store fr ns exp names xs)
  | call (ns tmpNs : Ns) (exp : ℕ) (names xs : List ℕ) (h : Calls c.store fr ns exp names xs)
    (hsup : tmpNs sup = none ↔ ns sup = none ∧ ∀ a ∈ names, keyOf c.store a ≠ some sup)
    (hval : ∀ p, tmpNs sup = some p → deref c.store p ≠ none)
    (hf : c'.frames = { self := c.store.length + 1, exp, state := .ef } ::
      { fr with state := .cfRet, tmp := c.store.length + 1 } :: rest)
    (hs : nsOf c'.store = Function.update (nsOf c.store) (c.store.length + 1) (some tmpNs))
  | ret (ns : Ns) (p : ℕ) (h : fr.state = .cfRet) (hns : nsOf c.store fr.tmp = some ns)
    (hp : ns sup = some p) (hf : c'.frames = rest)
    (hs : nsOf c'.store = nsOf c.store ∨
      nsOf c'.store = Function.update (nsOf c.store) fr.tmp (some (setRemoveStrKey ns sup)))
  | define (ns : Ns) (h : fr.state = .df) (hns : ns = Function.update (fun _ => none) sup fr.self)
    (hself : deref c.store fr.self ≠ none) (hf : c'.frames = rest)
    (hs : nsOf c'.store = Function.update (nsOf c.store) (c.store.length + 1) (some ns))
  | name (ns : Ns) (key v : ℕ) (k : Key) (h : fr.state = .nf)
    (hns : nsOf c.store fr.self = some ns) (hkey : objArrayIdx c.store fr.exp 0 = some key)
    (hk : keyOf c.store key = some k) (hv : objArrayIdx c.store fr.exp 1 = some v)
    (hval : deref c.store v ≠ none) (hf : c'.frames = rest)
    (hs : nsOf c'.store =
      Function.update (nsOf c.store) fr.self (some (Function.update ns k (some v))))

variable {c c' : Config ω} {fr : Frame} {rest : List Frame}

lemma Quiet.pop {s : Store} {ret : ℕ} (hs : nsOf s = nsOf c.store) :
    Quiet c fr rest (c.exit rest s ret) :=
  ⟨hs, [], rfl, by simp⟩

lemma Move.inside (h : fr.state = .ef ∨ fr.state = .ef0 ∨ fr.state = .ef1)
    (hq : Quiet c fr rest c') : Move c fr rest c' := by
  refine .quiet ?_ ?_ hq fun _ _ _ _ hc => ?_
  · rintro h'
    simp [h'] at h
  · rintro h'
    simp [h'] at h
  · simp [hc.state] at h

lemma stepCf_spec {n : ℕ} (h : stepCf N c fr rest n = some c') (hst : fr.state = .cf) :
    Runs c.store fr ∧ c'.frames = rest ∨ Atoms c.store c'.store ∧ Move c fr rest c' := by
  have hne : fr.state ≠ .cfRet := by simp [hst]
  unfold stepCf at h
  split at h
  · cases h
  · rename_i xs hd
    obtain ⟨ys, rfl, h1⟩ := Option.bind_eq_some_iff.mp h
    have hel : elems c.store fr.exp = some ys := by rw [elems, hd]
    split at h1
    · cases h1
    · rename_i g xs
      split at h1
      · rename_i ws hg
        obtain ⟨r, -, rfl⟩ := Option.map_eq_some_iff.mp h1
        exact .inl ⟨.inr ⟨hst, g, xs, ws, hel, hg⟩, rfl⟩
      · rename_i ns args exp hg
        obtain ⟨names, hargs, h⟩ := Option.bind_eq_some_iff.mp h1
        split_ifs at h with hlen
        · obtain ⟨⟨s, tmp⟩, hcall, rfl⟩ := Option.map_eq_some_iff.mp h
          obtain ⟨tmpNs, rfl, h2, h3, h4, h5⟩ := callFrame_spec hcall
          exact .inr ⟨h3, .call ns tmpNs exp names xs ⟨hst, ⟨g, args, hel, hg, hargs⟩, hlen⟩ h4 h5
            rfl h2⟩
        · cases h
          refine .inr ⟨.refl _, .quiet hne (by simp [hst]) (.pop rfl) ?_⟩
          rintro ns' exp' names' xs' ⟨-, ⟨g', args', h1', h2', h3'⟩, hlen'⟩
          cases hel.symm.trans h1'
          cases hg.symm.trans h2'
          cases hargs.symm.trans h3'
          exact hlen hlen'
      · cases h1
  · rename_i o hno hd
    obtain ⟨ret, -, rfl⟩ := Option.map_eq_some_iff.mp h
    refine .inr ⟨.refl _, .quiet hne (by simp [hst]) (.pop rfl) ?_⟩
    rintro ns exp names xs ⟨-, ⟨g, args, h1, -⟩, -⟩
    exact hno _ (Option.some.inj (hd.symm.trans (elems_eq h1)))

lemma stepCfRet_spec (h : stepCfRet N c fr rest = some c') (hst : fr.state = .cfRet) :
    Atoms c.store c'.store ∧ Move c fr rest c' := by
  obtain ⟨-, -, h⟩ := Option.bind_eq_some_iff.mp h
  obtain ⟨s, hdel, h⟩ := Option.bind_eq_some_iff.mp h
  obtain ⟨ns, p, hns, hp, hat, hs⟩ := delFn_spec hdel
  obtain ⟨len, -, h⟩ := Option.bind_eq_some_iff.mp h
  split_ifs at h
  · obtain ⟨ret, -, h⟩ := Option.bind_eq_some_iff.mp h
    obtain ⟨-, -, h⟩ := Option.bind_eq_some_iff.mp h
    obtain ⟨s', hset, rfl⟩ := Option.map_eq_some_iff.mp h
    obtain ⟨h1, h2⟩ := setObjArrayIdx_spec hset
    exact ⟨hat.trans h2, .ret ns p hst hns hp rfl (by rwa [← h1] at hs)⟩
  · cases h
    exact ⟨hat, .ret ns p hst hns hp rfl hs⟩

lemma stepDf_spec (h : stepDf c fr rest = some c') (hst : fr.state = .df) :
    Atoms c.store c'.store ∧ Move c fr rest c' := by
  obtain ⟨args, -, h⟩ := Option.bind_eq_some_iff.mp h
  obtain ⟨exp, -, h⟩ := Option.bind_eq_some_iff.mp h
  obtain ⟨⟨s, f⟩, hnew, rfl⟩ := Option.map_eq_some_iff.mp h
  obtain ⟨ns, rfl, rfl, hns, hself⟩ := newFn_spec hnew
  exact ⟨atoms_alloc (.inr ⟨_, _, _, rfl⟩), .define ns hst hns (hself _ rfl) rfl (nsOf_alloc_fn ..)⟩

lemma stepNf_spec (h : stepNf c fr rest = some c') (hst : fr.state = .nf) :
    Atoms c.store c'.store ∧ Move c fr rest c' := by
  unfold stepNf at h
  split at h
  · rename_i ns args exp hself
    obtain ⟨key, hkey, h⟩ := Option.bind_eq_some_iff.mp h
    obtain ⟨k, hk, h⟩ := Option.bind_eq_some_iff.mp h
    obtain ⟨v, hv, h⟩ := Option.bind_eq_some_iff.mp h
    obtain ⟨ns', hadd, rfl⟩ := Option.map_eq_some_iff.mp h
    obtain ⟨o, ho, rfl⟩ := Option.map_eq_some_iff.mp hadd
    refine ⟨atoms_put hself (.inr ⟨_, _, _, rfl⟩), .name ns key v k hst (nsOf_fn hself) hkey hk hv
      (by simp [ho]) rfl ?_⟩
    rw [Config.exit, nsOf_put_fn hself]
    simp [setRemoveStrKey]
  · cases h

lemma opState_ccf {k : Key} (h : opState k = some .ccf) : k = .words [60] := by
  unfold opState at h
  split at h <;> simp_all

lemma opState_ne_cfRet (k : Key) : opState k ≠ some .cfRet := by
  unfold opState
  split <;> simp

lemma stepEf1_spec (h : stepEf1 c fr rest = some c') (hst : fr.state = .ef1) :
    Atoms c.store c'.store ∧ Quiet c fr rest c' := by
  unfold stepEf1 at h
  split at h
  · rename_i op opStk hstk
    obtain ⟨-, -, h⟩ := Option.bind_eq_some_iff.mp h
    obtain ⟨state, hop, rfl⟩ := Option.map_eq_some_iff.mp h
    obtain ⟨k, hk, hop⟩ := Option.bind_eq_some_iff.mp hop
    refine ⟨.refl _, rfl, [_, _], rfl, ?_⟩
    rintro f (_ | ⟨_, _ | ⟨_, ⟨⟩⟩⟩)
    · refine ⟨rfl, fun (h : state = _) => opState_ne_cfRet k (h ▸ hop), fun (h : state = _) => ?_⟩
      have hk' : k = .words [60] := opState_ccf (h ▸ hop)
      exact ⟨op, by rw [hk, hk']⟩
    · exact ⟨rfl, by simp [hst], by simp [hst]⟩
  · obtain ⟨s, happ, h⟩ := Option.bind_eq_some_iff.mp h
    obtain ⟨size, -, h⟩ := Option.map_eq_some_iff.mp h
    obtain ⟨h1, h2⟩ := objArrayAppend_spec happ
    split_ifs at h
    · cases h
      exact ⟨h2, .pop h1⟩
    · cases h
      exact ⟨h2, h1, [_], rfl, by simp⟩

lemma stepEf0_spec (h : stepEf0 c fr rest = some c') :
    Atoms c.store c'.store ∧ Quiet c fr rest c' := by
  obtain ⟨xs, -, h⟩ := Option.bind_eq_some_iff.mp h
  obtain ⟨⟨ret, i, opStk⟩, -, h⟩ := Option.bind_eq_some_iff.mp h
  have h1 : stepEf1 { c with ret } { fr with i, opStk, state := .ef1, old := 0 } rest = some c' := h
  obtain ⟨h2, h3⟩ := stepEf1_spec h1 rfl
  exact ⟨h2, h3⟩

lemma stepEf_spec (h : stepEf c fr rest = some c') :
    Atoms c.store c'.store ∧ Quiet c fr rest c' := by
  unfold stepEf at h
  split at h
  · cases h
  · rename_i xs hd
    obtain ⟨ys, rfl, h1⟩ := Option.bind_eq_some_iff.mp h
    split_ifs at h1
    · cases h1
      exact ⟨.refl _, .pop rfl⟩
    · have hat := atoms_alloc (s := c.store) (o := .arr (some [])) (.inl ⟨_, rfl⟩)
      obtain ⟨h2, h3, fs, h4, h5⟩ := stepEf0_spec h1
      refine ⟨hat.trans h2, h3.trans (nsOf_alloc (by simp)), fs, h4, fun f hf => ?_⟩
      obtain ⟨h6, h7, h8⟩ := h5 f hf
      exact ⟨h6, h7, fun h9 => (h8 h9).imp fun r => hat.key⟩
  · cases h
    exact ⟨.refl _, .pop rfl⟩

/-- **A round**, by the state of the frame: it hands over, or it is one of the moves. -/
theorem step_cases {n : ℕ} (h : step N c n = some c') : ∃ fr rest, c.frames = fr :: rest ∧
    (Runs c.store fr ∧ c'.frames = rest ∨ Atoms c.store c'.store ∧ Move c fr rest c') := by
  unfold step at h
  split at h
  · cases h
  · rename_i fr rest hfr
    refine ⟨fr, rest, hfr, ?_⟩
    cases hst : fr.state <;> rw [hst] at h <;> simp only at h
    case cf => exact stepCf_spec h hst
    case cfRet => exact .inr (stepCfRet_spec h hst)
    case df => exact .inr (stepDf_spec h hst)
    case ef => exact .inr ((stepEf_spec h).imp_right (.inside (by simp [hst])))
    case ef0 => exact .inr ((stepEf0_spec h).imp_right (.inside (by simp [hst])))
    case ef1 => exact .inr ((stepEf1_spec h hst).imp_right (.inside (by simp [hst])))
    case ccf =>
      obtain ⟨r, -, rfl⟩ := Option.map_eq_some_iff.mp h
      exact .inl ⟨.inl hst, rfl⟩
    case nf => exact .inr (stepNf_spec h hst)

/-- With nothing beside the evaluator a frame cannot hand over. -/
lemma step_noNative {c : Config Unit} {fr : Frame} {rest : List Frame} {n : ℕ}
    (hfr : c.frames = fr :: rest) (hrun : Runs c.store fr) : step noNative c n = none := by
  rcases hrun with h | ⟨h, f, xs, ws, h1, h2⟩
  · simp [step, hfr, h, stepCcf, noNative]
  · simp [step, hfr, h, stepCf, elems_eq h1, h2, noNative]

/-- **The start**: the store of the tokens, the main function, in which nothing is bound, and the
list that calls it. -/
lemma runProgStack_spec {w : ω} {ts : List Reader.Tree} {stack heap : ℕ}
    (h : runProgStack w ts stack heap = some c) : ∃ s args exp x,
      s = (load (load [] (.arr ts)).1 (.arr [.str [83, 84, 65, 67, 75], .str [72, 69, 65, 80]])).1 ∧
      c.store = (alloc (alloc (alloc (alloc s (.fn (fun _ => none) args exp)).1
        (.num [stack, 0])).1 (.num [heap, 0])).1 (.arr x)).1 ∧
      ∃ expr, c.frames = [{ self := s.length + 1, exp := expr, state := .cf }] := by
  unfold runProgStack at h
  generalize load [] (.arr ts) = q at h ⊢
  obtain ⟨s, exp⟩ := q
  simp only at h ⊢
  generalize load s (.arr [.str [83, 84, 65, 67, 75], .str [72, 69, 65, 80]]) = q at h ⊢
  obtain ⟨s, args⟩ := q
  simp only at h ⊢
  obtain ⟨⟨s', main⟩, hnew, rfl⟩ := Option.map_eq_some_iff.mp h
  obtain ⟨ns, rfl, rfl, hns, -⟩ := newFn_spec hnew
  have hempty : ns = fun _ => none := by simp [hns]
  subst hempty
  exact ⟨s, args, exp, _, rfl, rfl, _, rfl⟩

mutual
lemma nsOf_load : ∀ (s : Store) (t : Reader.Tree), nsOf (load s t).1 = nsOf s
  | _, .str _ => nsOf_alloc (by simp)
  | _, .num _ => nsOf_alloc (by simp)
  | s, .arr ts => (nsOf_alloc (by simp)).trans (nsOf_loadList s ts)
lemma nsOf_loadList : ∀ (s : Store) (ts : List Reader.Tree), nsOf (loadList s ts).1 = nsOf s
  | _, [] => rfl
  | s, t :: ts => (nsOf_loadList (load s t).1 ts).trans (nsOf_load s t)
end

end LispMachine.InterpStep
