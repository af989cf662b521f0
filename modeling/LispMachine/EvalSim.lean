import LispMachine.EvalRel

/-!
The operations of the two evaluators on corresponding stores.
-/

namespace LispMachine.EvalSim

open LispMachine.Interp LispMachine.InterpStep LispMachine.EvalRel

variable {R R' : ℕ → ℕ → Prop} {s s' s₁ s₁' : Store}

/-! ### Namespaces -/

/-- Two namespaces with corresponding bindings, of stores with corresponding objects. -/
structure Spaces (R : ℕ → ℕ → Prop) (s s' : Store) (ns ns' : Ns) : Prop where
  rel : NsRel R ns ns'
  left : KeysIn (IsFn s) ns
  right : KeysIn (IsFn s') ns'

/-- Two keys of corresponding objects. -/
structure Keys (R : ℕ → ℕ → Prop) (s s' : Store) (k k' : Key) : Prop where
  rel : KeyRel R k k'
  left : ∀ f, k = .fn f → IsFn s f
  right : ∀ f, k' = .fn f → IsFn s' f

lemma keys_words (ws : List ℕ) : Keys R s s' (.words ws) (.words ws) :=
  ⟨.words ws, by simp, by simp⟩

lemma keys_sup : Keys R s s' sup sup := keys_words _

lemma keysIn_update {F : ℕ → Prop} {ns : Ns} (h : KeysIn F ns) {k : Key}
    (hk : ∀ f, k = .fn f → F f) (o : Option ℕ) : KeysIn F (Function.update ns k o) := by
  intro f hf
  by_cases hfk : Key.fn f = k
  · exact hk f hfk.symm
  · rw [Function.update_of_ne hfk] at hf
    exact h f hf

lemma Spaces.update (h : Rel R s s') {ns ns' : Ns} (hns : Spaces R s s' ns ns') {k k' : Key}
    (hk : Keys R s s' k k') {o o' : Option ℕ} (ho : Option.Rel R o o') :
    Spaces R s s' (Function.update ns k o) (Function.update ns' k' o') := by
  refine ⟨fun l l' hl => ?_, keysIn_update hns.left hk.left o, keysIn_update hns.right hk.right o'⟩
  have hiff := h.key_iff hk.rel hl hk.left hk.right
  rw [Function.update_apply, Function.update_apply]
  by_cases hlk : l = k
  · rw [if_pos hlk, if_pos (hiff.mp hlk)]
    exact ho
  · rw [if_neg hlk, if_neg (mt hiff.mpr hlk)]
    exact hns.rel l l' hl

lemma spaces_empty : Spaces R s s' (fun _ => none) fun _ => none :=
  ⟨fun _ _ _ => .none, fun _ hf => absurd rfl hf, fun _ hf => absurd rfl hf⟩

lemma Rel.keys (h : Rel R s s') {a b : ℕ} (hab : R a b) {k : Key} (ha : keyOf s a = some k) :
    ∃ k', keyOf s' b = some k' ∧ Keys R s s' k k' ∧ opState k' = EvalFn.ops k := by
  obtain ⟨k', h1, h2, h3, h4, h5⟩ := h.key hab ha
  exact ⟨k', h1, ⟨h2, h4, h5⟩, h3⟩

lemma ne_zero_of_deref {r : ℕ} (h : deref s r ≠ none) : r ≠ 0 := by
  rintro rfl
  exact h rfl

lemma ne_zero_of_key {r : ℕ} {k : Key} (h : keyOf s r = some k) : r ≠ 0 := by
  refine ne_zero_of_deref (s := s) ?_
  obtain ⟨o, ho, -⟩ := Option.map_eq_some_iff.mp h
  simp [ho]

/-- **`set_add_str_key`** on corresponding namespaces. -/
lemma setAddStrKey_sim (h : Rel R s s') {ns ns' ns₁ : Ns} (hns : Spaces R s s' ns ns')
    {k k' : Key} (hk : Keys R s s' k k') {v v' : ℕ} (hv : VRel R v v')
    (hadd : setAddStrKey s ns (some k) v = some ns₁) :
    ∃ ns₁', setAddStrKey s' ns' (some k') v' = some ns₁' ∧ Spaces R s s' ns₁ ns₁' := by
  obtain ⟨o, ho, rfl⟩ := Option.map_eq_some_iff.mp hadd
  have hvv := hv.of_ne (ne_zero_of_deref (s := s) (by simp [ho]))
  obtain ⟨o', ho'⟩ := Option.ne_none_iff_exists'.mp (h.deref_right hvv)
  refine ⟨_, by rw [setAddStrKey, Option.bind_some, ho', Option.map_some], ?_⟩
  have hrel := hns.rel k k' hk.rel
  cases hx : ns k with
  | none =>
    rw [hx] at hrel
    cases hx' : ns' k' with
    | none => exact hns.update h hk (.some hvv)
    | some x' => simp [hx'] at hrel
  | some x =>
    rw [hx] at hrel
    cases hx' : ns' k' with
    | none => simp [hx'] at hrel
    | some x' => exact hns

lemma addArgs_sim (h : Rel R s s') {names names' xs xs' : List ℕ}
    (hn : List.Forall₂ (VRel R) names names') (hx : List.Forall₂ (VRel R) xs xs') {ns ns' ns₁ : Ns}
    (hns : Spaces R s s' ns ns') (hadd : addArgs s names xs ns = some ns₁) :
    ∃ ns₁', addArgs s' names' xs' ns' = some ns₁' ∧ Spaces R s s' ns₁ ns₁' := by
  induction hn generalizing xs xs' ns ns' with
  | nil =>
    cases hadd
    exact ⟨ns', by rw [addArgs], hns⟩
  | cons ha hn ih =>
    cases hx with
    | nil => cases hadd
    | cons hv hx =>
      obtain ⟨ns₂, h1, h2⟩ := Option.bind_eq_some_iff.mp hadd
      obtain ⟨k, hk, -⟩ := Option.bind_eq_some_iff.mp h1
      obtain ⟨k', hk', hkk, -⟩ := Rel.keys h (ha.of_ne (ne_zero_of_key hk)) hk
      rw [hk] at h1
      obtain ⟨ns₂', h3, h4⟩ := setAddStrKey_sim h hns hkk hv h1
      obtain ⟨ns₁', h5, h6⟩ := ih hx h4 h2
      exact ⟨ns₁', by rw [addArgs, hk', h3, Option.bind_some, h5], h6⟩

/-! ### Stores that grow -/

/-- The store grows and keeps its arrays. -/
structure KeepsArr (s t : Store) : Prop where
  length_le : s.length ≤ t.length
  arr : ∀ a xs, deref s a = some (.arr xs) → deref t a = some (.arr xs)

lemma KeepsArr.refl (s : Store) : KeepsArr s s := ⟨le_rfl, fun _ _ => id⟩

lemma KeepsArr.trans {s t u : Store} (h : KeepsArr s t) (h' : KeepsArr t u) : KeepsArr s u :=
  ⟨h.length_le.trans h'.length_le, fun a xs ha => h'.arr a xs (h.arr a xs ha)⟩

lemma keepsArr_alloc (s : Store) (o : Obj) : KeepsArr s (alloc s o).1 := by
  refine ⟨by simp [alloc], fun a xs ha => ?_⟩
  rw [deref_alloc_old (by simp [ha]), ha]

lemma keepsArr_put_fn {f args exp args' exp' : ℕ} {ns ns' : Ns}
    (h : deref s f = some (.fn ns args exp)) : KeepsArr s (put s f (.fn ns' args' exp')) := by
  refine ⟨by simp [put], fun a xs ha => ?_⟩
  rw [deref_put h, if_neg, ha]
  rintro rfl
  cases h.symm.trans ha

/-- Both stores grow, and so does the correspondence of what is in use. What is new in the
correspondence is new in the stores or corresponded already. -/
structure Ext (U : ℕ → Prop) (R R' : ℕ → ℕ → Prop) (s t s' t' : Store) : Prop where
  mono : ∀ a b, U b → R a b → R' a b
  left : ∀ a b, R' a b → (∃ b₀, R a b₀) ∨ s.length < a
  right : ∀ a b, R' a b → (∃ a₀, R a₀ b) ∨ s'.length < b
  arrs : KeepsArr s t
  arrs' : KeepsArr s' t'

variable {U : ℕ → Prop}

lemma Ext.refl (R : ℕ → ℕ → Prop) (s s' : Store) : Ext U R R s s s' s' :=
  ⟨fun _ _ _ => id, fun _ b h => .inl ⟨b, h⟩, fun a _ h => .inl ⟨a, h⟩, .refl s, .refl s'⟩

lemma Ext.trans {R'' : ℕ → ℕ → Prop} {t u t' u' : Store} (h : Ext U R R' s t s' t')
    (h' : Ext U R' R'' t u t' u') : Ext U R R'' s u s' u' := by
  refine ⟨fun a b hb hab => h'.mono a b hb (h.mono a b hb hab), fun a b hab => ?_,
    fun a b hab => ?_, h.arrs.trans h'.arrs, h.arrs'.trans h'.arrs'⟩
  · rcases h'.left a b hab with ⟨b₀, h1⟩ | h1
    · exact h.left a b₀ h1
    · exact .inr (h.arrs.length_le.trans_lt h1)
  · rcases h'.right a b hab with ⟨a₀, h1⟩ | h1
    · exact h.right a₀ b h1
    · exact .inr (h.arrs'.length_le.trans_lt h1)

lemma Ext.weaken {V : ℕ → Prop} {t t' : Store} (h : Ext U R R' s t s' t') (hV : ∀ b, V b → U b) :
    Ext V R R' s t s' t' :=
  ⟨fun a b hb => h.mono a b (hV b hb), h.left, h.right, h.arrs, h.arrs'⟩

/-- The stores alone grow. -/
lemma Ext.stores {t t' : Store} (h : KeepsArr s t) (h' : KeepsArr s' t') : Ext U R R s t s' t' :=
  ⟨fun _ _ _ => id, fun _ b hab => .inl ⟨b, hab⟩, fun a _ hab => .inl ⟨a, hab⟩, h, h'⟩

lemma ext_alloc (R : ℕ → ℕ → Prop) (s s' : Store) (o o' : Obj) :
    Ext U R (addPair R (s.length + 1) (s'.length + 1)) s (alloc s o).1 s' (alloc s' o').1 := by
  refine ⟨fun _ _ _ => .inl, ?_, ?_, keepsArr_alloc s o, keepsArr_alloc s' o'⟩
  · rintro a b (hab | ⟨rfl, rfl⟩)
    · exact .inl ⟨b, hab⟩
    · exact .inr (by omega)
  · rintro a b (hab | ⟨rfl, rfl⟩)
    · exact .inl ⟨a, hab⟩
    · exact .inr (by omega)

/-! ### Functions -/

lemma newFn_iff {p : Option ℕ} {args exp : ℕ} {r : Store × ℕ} : newFn s p args exp = some r ↔
    deref s args ≠ none ∧ deref s exp ≠ none ∧ (∀ q, p = some q → deref s q ≠ none) ∧
      r = alloc s (.fn (Function.update (fun _ => none) sup p) args exp) := by
  unfold newFn
  cases ha : deref s args with
  | none => simp
  | some o =>
    cases he : deref s exp with
    | none => simp
    | some o' =>
      cases p with
      | none => simp [eq_comm]
      | some q =>
        cases hq : deref s q with
        | none => simp [setAddStrKey, hq]
        | some o'' => simp [setAddStrKey, hq, eq_comm]

/-- **`new_fn`** on corresponding stores, for a parent `p`. -/
lemma newFn_sim (h : Rel R s s') {p p' : Option ℕ} (hp : Option.Rel R p p')
    {args args' exp exp' : ℕ} (ha : VRel R args args') (he : VRel R exp exp') {r : Store × ℕ}
    (hr : newFn s p args exp = some r) : ∃ r' R', newFn s' p' args' exp' = some r' ∧
      Ext U R R' s r.1 s' r'.1 ∧ Rel R' r.1 r'.1 ∧ R' r.2 r'.2 ∧
      ∃ o, r'.1 = (alloc s' o).1 ∧ ∀ xs, o ≠ .arr xs := by
  obtain ⟨h1, h2, h3, rfl⟩ := newFn_iff.mp hr
  have ha' := ha.of_ne (ne_zero_of_deref h1)
  have he' := he.of_ne (ne_zero_of_deref h2)
  have hns := spaces_empty.update h keys_sup hp
  refine ⟨_, _, newFn_iff.mpr ⟨h.deref_right ha', h.deref_right he', fun q hq => ?_, rfl⟩,
    ext_alloc .., h.alloc_fn hns.rel hns.left hns.right ha' he', .inr ⟨rfl, rfl⟩, _, rfl, by simp⟩
  cases hp with
  | none => cases hq
  | some hpq =>
    cases hq
    exact h.deref_right hpq

lemma callFrame_iff {ns : Ns} {args exp : ℕ} {names xs : List ℕ} {r : Store × ℕ} :
    callFrame s ns args exp names xs = some r ↔ deref s args ≠ none ∧ deref s exp ≠ none ∧
      (∀ q, ns sup = some q → deref s q ≠ none) ∧
      ∃ tmpNs, addArgs s names xs (Function.update (fun _ => none) sup (ns sup)) = some tmpNs ∧
        r = alloc s (.fn tmpNs args exp) := by
  have hput : ∀ ns₀ ns₁ : Ns, put (s ++ [.fn ns₀ args exp]) (s.length + 1) (.fn ns₁ args exp) =
      s ++ [.fn ns₁ args exp] := by
    intro ns₀ ns₁
    simp [put]
  constructor
  · intro h
    obtain ⟨⟨t, f⟩, h1, h⟩ := Option.bind_eq_some_iff.mp h
    obtain ⟨h2, h3, h4, h5⟩ := newFn_iff.mp h1
    cases h5
    simp only [deref, List.getElem?_concat_length] at h
    obtain ⟨tmpNs, h6, rfl⟩ := Option.map_eq_some_iff.mp h
    exact ⟨h2, h3, h4, tmpNs, h6, by rw [hput, alloc]⟩
  · rintro ⟨h2, h3, h4, tmpNs, h6, rfl⟩
    rw [callFrame, newFn_iff.mpr ⟨h2, h3, h4, rfl⟩, Option.bind_some]
    simp only [alloc, deref, List.getElem?_concat_length, h6, Option.map_some, hput]

/-- **The function of a call** on corresponding stores. -/
lemma callFrame_sim (h : Rel R s s') {ns ns' : Ns} (hns : Spaces R s s' ns ns')
    {args args' exp exp' : ℕ} (ha : R args args') (he : R exp exp') {names names' xs xs' : List ℕ}
    (hn : List.Forall₂ (VRel R) names names') (hx : List.Forall₂ (VRel R) xs xs')
    {r : Store × ℕ} (hr : callFrame s ns args exp names xs = some r) :
    ∃ r' R', callFrame s' ns' args' exp' names' xs' = some r' ∧ Ext U R R' s r.1 s' r'.1 ∧
      Rel R' r.1 r'.1 ∧ R' r.2 r'.2 ∧ ∃ o, r'.1 = (alloc s' o).1 ∧ ∀ xs, o ≠ .arr xs := by
  obtain ⟨h1, h2, h3, tmpNs, h4, rfl⟩ := callFrame_iff.mp hr
  have hkey : Keys R s s' sup sup := keys_sup
  have hsup := hns.rel _ _ hkey.rel
  have h0 := spaces_empty.update h hkey hsup
  obtain ⟨tmpNs', h5, h6⟩ := addArgs_sim h hn hx h0 h4
  refine ⟨_, _, callFrame_iff.mpr ⟨h.deref_right ha, h.deref_right he, fun q hq => ?_, tmpNs', h5,
    rfl⟩, ext_alloc .., h.alloc_fn h6.rel h6.left h6.right ha he, .inr ⟨rfl, rfl⟩, _, rfl,
    by simp⟩
  rw [hq] at hsup
  cases hp : ns sup with
  | none => simp [hp] at hsup
  | some p =>
    rw [hp] at hsup
    cases hsup with
    | some hpq => exact h.deref_right hpq

/-! ### Lookup -/

lemma getValLoop_sim (h : Rel R s s') {k k' : Key} (hk : KeyRel R k k') {n : ℕ} {ns ns' : Ns}
    (hns : NsRel R ns ns') {r : Option ℕ} (hr : getValLoop s k n ns = some r) :
    ∃ r', getValLoop s' k' n ns' = some r' ∧ Option.Rel R r r' := by
  induction n generalizing ns ns' with
  | zero => cases hr
  | succ n ih =>
    have hsup := hns sup sup (.words _)
    have hval := hns k k' hk
    rw [getValLoop] at hr ⊢
    cases hp : ns sup with
    | none =>
      rw [hp] at hsup
      cases hp' : ns' sup with
      | some p' => simp [hp'] at hsup
      | none =>
        simp only [hp] at hr
        exact ⟨ns' k', rfl, Option.some.inj hr ▸ hval⟩
    | some p =>
      rw [hp] at hsup
      cases hp' : ns' sup with
      | none => simp [hp'] at hsup
      | some p' =>
        rw [hp'] at hsup
        obtain ⟨o, o', h1, h2, ho⟩ : ∃ o o', deref s p = some o ∧ deref s' p' = some o' ∧
            ObjRel R (IsFn s) (IsFn s') o o' := by
          cases hsup with
          | some hpp => exact h.obj p p' hpp
        simp only [hp, h1] at hr
        simp only [h2]
        cases ho with
        | fn hns' =>
          simp only at hr ⊢
          cases hv : ns k with
          | none =>
            rw [hv] at hval
            cases hv' : ns' k' with
            | some v' => simp [hv'] at hval
            | none =>
              simp only [hv] at hr
              exact ih hns' hr
          | some v =>
            rw [hv] at hval
            cases hv' : ns' k' with
            | none => simp [hv'] at hval
            | some v' =>
              simp only [hv] at hr
              exact ⟨_, rfl, Option.some.inj hr ▸ hv' ▸ hval⟩
        | str | num | arr => exact ⟨ns' k', rfl, Option.some.inj hr ▸ hval⟩

/-- **`get_val`** on corresponding stores. -/
lemma getVal_sim (h : Rel R s s') {obj obj' self self' : ℕ} (ho : R obj obj')
    (hself : R self self') {n v : ℕ} (hv : getVal n s obj self = some v) :
    ∃ v', getVal n s' obj' self' = some v' ∧ VRel R v v' := by
  unfold getVal at hv
  split at hv
  · rename_i ns args exp hd
    obtain ⟨ns', args', exp', hd', hns, -⟩ := h.fn hself hd
    obtain ⟨k, hk, hv⟩ := Option.bind_eq_some_iff.mp hv
    obtain ⟨k', hk', hkk, -⟩ := Rel.keys h ho hk
    obtain ⟨r, hr, rfl⟩ := Option.map_eq_some_iff.mp hv
    obtain ⟨r', hr', hrr⟩ := getValLoop_sim h hkk.rel hns hr
    cases hrr with
    | some hvv =>
      exact ⟨_, by simp only [getVal, hd', hk', Option.bind_some, hr', Option.map_some], .inr hvv⟩
    | none =>
      refine ⟨if k' = slf then self' else 0,
        by simp only [getVal, hd', hk', Option.bind_some, hr', Option.map_some], ?_⟩
      have hslf : k = slf ↔ k' = slf := by
        have hrel := hkk.rel
        cases hrel with
        | words ws => rfl
        | fn => simp [slf]
      by_cases hks : k = slf
      · simp only [if_pos hks, if_pos (hslf.mp hks)]
        exact .inr hself
      · simp only [if_neg hks, if_neg (mt hslf.mpr hks)]
        exact .inl ⟨rfl, rfl⟩
  · cases hv

/-! ### Lists -/

lemma forall₂_get? {xs xs' : List ℕ} (hx : List.Forall₂ (VRel R) xs xs') {i v : ℕ}
    (hv : xs[i]? = some v) : ∃ v', xs'[i]? = some v' ∧ VRel R v v' := by
  induction hx generalizing i with
  | nil => simp at hv
  | cons h hx ih =>
    cases i with
    | zero =>
      simp only [List.getElem?_cons_zero, Option.some.injEq] at hv ⊢
      exact ⟨_, rfl, hv ▸ h⟩
    | succ i =>
      simp only [List.getElem?_cons_succ] at hv ⊢
      exact ih hv

lemma objArrayIdx_sim (h : Rel R s s') {a a' i v : ℕ} (ha : R a a')
    (hv : objArrayIdx s a i = some v) : ∃ v', objArrayIdx s' a' i = some v' ∧ VRel R v v' := by
  obtain ⟨xs, h1, h2⟩ := Option.bind_eq_some_iff.mp hv
  obtain ⟨xs', h3, h4⟩ := h.elems ha h1
  obtain ⟨v', h5, h6⟩ := forall₂_get? h4 h2
  exact ⟨v', by rw [objArrayIdx, h3, Option.bind_some, h5], h6⟩

/-- The operators before an element, on corresponding lists. -/
lemma opLoop_sim (h : Rel R s s') {xs xs' : List ℕ} (hx : List.Forall₂ (VRel R) xs xs') {i : ℕ}
    {stk stk' : List ℕ} (hstk : List.Forall₂ R stk stk') {v j : ℕ} {st : List ℕ}
    (hr : opLoop EvalFn.ops s xs i stk = some (v, j, st)) :
    ∃ v' st', opLoop opState s' xs' i stk' = some (v', j, st') ∧ R v v' ∧
      List.Forall₂ R st st' := by
  induction hx generalizing i stk stk' with
  | nil => cases hr
  | cons hxx hx ih =>
    obtain ⟨k, hk, hr⟩ := Option.bind_eq_some_iff.mp hr
    have hxx' := hxx.of_ne (ne_zero_of_key hk)
    obtain ⟨k', hk', -, hop⟩ := Rel.keys h hxx' hk
    rw [opLoop, hk', Option.bind_some, hop]
    split_ifs at hr ⊢
    · exact ih (.cons hxx' hstk) hr
    · cases hr
      exact ⟨_, _, rfl, hxx', hstk⟩

end LispMachine.EvalSim
