import Mathlib.Data.List.Forall2
import LispMachine.EvalFn
import LispMachine.InterpStep

/-!
Two stores that hold the same objects under different names.

The functions of one store correspond one to one to those of the other; of arrays several may
correspond to one. No object that corresponds to another is the operator `<` or bytecode.
-/

namespace LispMachine.EvalRel

open LispMachine.Interp LispMachine.InterpStep

/-- A correspondence of objects; the null pointer corresponds to itself. -/
def VRel (R : ℕ → ℕ → Prop) (a b : ℕ) : Prop := a = 0 ∧ b = 0 ∨ R a b

inductive KeyRel (R : ℕ → ℕ → Prop) : Key → Key → Prop
  | words (ws : List ℕ) : KeyRel R (.words ws) (.words ws)
  | fn {f f' : ℕ} (h : R f f') : KeyRel R (.fn f) (.fn f')

def NsRel (R : ℕ → ℕ → Prop) (ns ns' : Ns) : Prop :=
  ∀ k k', KeyRel R k k' → Option.Rel R (ns k) (ns' k')

def ArrRel (R : ℕ → ℕ → Prop) : Option (List ℕ) → Option (List ℕ) → Prop :=
  Option.Rel (List.Forall₂ (VRel R))

/-- The functions that are keys of a namespace are functions of the store. -/
def KeysIn (F : ℕ → Prop) (ns : Ns) : Prop := ∀ f, ns (.fn f) ≠ none → F f

inductive ObjRel (R : ℕ → ℕ → Prop) (F F' : ℕ → Prop) : Obj → Obj → Prop
  | str {ws : List ℕ} (h : ws ≠ [60]) : ObjRel R F F' (.str ws) (.str ws)
  | num {ws : List ℕ} (h : ws ≠ [60]) : ObjRel R F F' (.num ws) (.num ws)
  | arr {xs xs' : Option (List ℕ)} (h : ArrRel R xs xs') : ObjRel R F F' (.arr xs) (.arr xs')
  | fn {ns ns' : Ns} {args args' exp exp' : ℕ} (hns : NsRel R ns ns') (hk : KeysIn F ns)
    (hk' : KeysIn F' ns') (ha : R args args') (he : R exp exp') :
    ObjRel R F F' (.fn ns args exp) (.fn ns' args' exp')

/-- The functions of a store. -/
def IsFn (s : Store) (r : ℕ) : Prop := nsOf s r ≠ none

/-- Two stores with corresponding objects. -/
structure Rel (R : ℕ → ℕ → Prop) (s s' : Store) : Prop where
  obj : ∀ a b, R a b → ∃ o o', deref s a = some o ∧ deref s' b = some o' ∧
    ObjRel R (IsFn s) (IsFn s') o o'
  right : ∀ a b b', R a b → R a b' → IsFn s a → b' = b
  left : ∀ a a' b, R a b → R a' b → IsFn s' b → a' = a

variable {R R' : ℕ → ℕ → Prop} {F F' G G' : ℕ → Prop} {s s' t t' : Store} {a b : ℕ}

/-! ### Correspondences that grow -/

lemma VRel.mono (h : ∀ a b, R a b → R' a b) (hv : VRel R a b) : VRel R' a b :=
  hv.imp_right (h a b)

lemma VRel.of_ne (h : VRel R a b) (ha : a ≠ 0) : R a b := h.resolve_left fun h0 => ha h0.1

lemma optionRel_mono (h : ∀ a b, R a b → R' a b) {o o' : Option ℕ} (ho : Option.Rel R o o') :
    Option.Rel R' o o' := by
  cases ho with
  | none => exact .none
  | some hr => exact .some (h _ _ hr)

lemma ArrRel.mono (h : ∀ a b, R a b → R' a b) {xs xs' : Option (List ℕ)} (hx : ArrRel R xs xs') :
    ArrRel R' xs xs' := by
  cases hx with
  | none => exact .none
  | some hx => exact .some (hx.imp fun _ _ => VRel.mono h)

/-- What is new in a correspondence was no function before. -/
def News (R R' : ℕ → ℕ → Prop) (F F' : ℕ → Prop) : Prop :=
  ∀ a b, R' a b → R a b ∨ ¬ F a ∧ ¬ F' b

lemma NsRel.mono (h : ∀ a b, R a b → R' a b) (hnew : News R R' F F') {ns ns' : Ns}
    (hns : NsRel R ns ns') (hk : KeysIn F ns) (hk' : KeysIn F' ns') : NsRel R' ns ns' := by
  intro k k' hkk
  cases hkk with
  | words ws => exact optionRel_mono h (hns _ _ (.words ws))
  | fn hf =>
    rcases hnew _ _ hf with hf | ⟨h1, h2⟩
    · exact optionRel_mono h (hns _ _ (.fn hf))
    · rw [not_not.mp (mt (hk _) h1), not_not.mp (mt (hk' _) h2)]
      exact .none

lemma ObjRel.mono (h : ∀ a b, R a b → R' a b) (hnew : News R R' F F') (hF : ∀ f, F f → G f)
    (hF' : ∀ f, F' f → G' f) {o o' : Obj} (ho : ObjRel R F F' o o') : ObjRel R' G G' o o' := by
  cases ho with
  | str h0 => exact .str h0
  | num h0 => exact .num h0
  | arr hx => exact .arr (hx.mono h)
  | fn hns hk hk' ha he =>
    exact .fn (hns.mono h hnew hk hk') (fun f hf => hF f (hk f hf)) (fun f hf => hF' f (hk' f hf))
      (h _ _ ha) (h _ _ he)

lemma News.refl : News R R F F' := fun _ _ => .inl

/-! ### What corresponding objects have in common -/

lemma Rel.isFn (h : Rel R s s') (hab : R a b) : IsFn s a ↔ IsFn s' b := by
  obtain ⟨o, o', h1, h2, ho⟩ := h.obj a b hab
  rw [IsFn, IsFn, nsOf, nsOf, h1, h2]
  cases ho <;> simp

lemma Rel.fn (h : Rel R s s') (hab : R a b) {ns : Ns} {args exp : ℕ}
    (ha : deref s a = some (.fn ns args exp)) : ∃ ns' args' exp',
      deref s' b = some (.fn ns' args' exp') ∧ NsRel R ns ns' ∧ KeysIn (IsFn s) ns ∧
        KeysIn (IsFn s') ns' ∧ R args args' ∧ R exp exp' := by
  obtain ⟨o, o', h1, h2, ho⟩ := h.obj a b hab
  cases ha.symm.trans h1
  cases ho with
  | fn hns hk hk' ha he => exact ⟨_, _, _, h2, hns, hk, hk', ha, he⟩

lemma Rel.elems (h : Rel R s s') (hab : R a b) {xs : List ℕ} (ha : elems s a = some xs) :
    ∃ xs', elems s' b = some xs' ∧ List.Forall₂ (VRel R) xs xs' := by
  obtain ⟨o, o', h1, h2, ho⟩ := h.obj a b hab
  cases (elems_eq ha).symm.trans h1
  cases ho with
  | arr hx =>
    cases hx with
    | some hx => exact ⟨_, by rw [Interp.elems, h2], hx⟩

lemma Rel.key (h : Rel R s s') (hab : R a b) {k : Key} (ha : keyOf s a = some k) :
    ∃ k', keyOf s' b = some k' ∧ KeyRel R k k' ∧ opState k' = EvalFn.ops k ∧
      (∀ f, k = .fn f → IsFn s f) ∧ ∀ f, k' = .fn f → IsFn s' f := by
  obtain ⟨o, o', h1, h2, ho⟩ := h.obj a b hab
  rw [keyOf, h1, Option.map_some, Option.some.injEq] at ha
  subst ha
  refine ⟨_, by rw [keyOf, h2, Option.map_some], ?_⟩
  have hop : ∀ ws, ws ≠ [60] → opState (.words ws) = EvalFn.ops (.words ws) := by
    intro ws hws
    unfold opState EvalFn.ops
    split <;> simp_all
  cases ho with
  | str h0 => exact ⟨.words _, hop _ h0, by simp [Obj.key], by simp [Obj.key]⟩
  | num h0 => exact ⟨.words _, hop _ h0, by simp [Obj.key], by simp [Obj.key]⟩
  | arr hx => exact ⟨.words _, rfl, by simp [Obj.key], by simp [Obj.key]⟩
  | fn =>
    refine ⟨.fn hab, rfl, ?_, ?_⟩ <;> rintro f ⟨⟩
    · simp [IsFn, nsOf_fn h1]
    · simp [IsFn, nsOf_fn h2]

/-- Corresponding keys are equal to corresponding keys. -/
lemma Rel.key_iff (h : Rel R s s') {k k' l l' : Key} (hk : KeyRel R k k') (hl : KeyRel R l l')
    (hf : ∀ f, k = .fn f → IsFn s f) (hf' : ∀ f, k' = .fn f → IsFn s' f) : l = k ↔ l' = k' := by
  cases hk with
  | words ws => cases hl <;> simp
  | fn hff =>
    cases hl with
    | words ws => simp
    | fn hgg =>
      simp only [Key.fn.injEq]
      constructor
      · rintro rfl
        exact h.right _ _ _ hff hgg (hf _ rfl)
      · rintro rfl
        exact h.left _ _ _ hff hgg (hf' _ rfl)

/-! ### Changes of the stores -/

lemma isFn_alloc_arr (xs : Option (List ℕ)) : IsFn (alloc s (.arr xs)).1 = IsFn s := by
  ext f
  rw [IsFn, IsFn, nsOf_alloc (by simp)]

lemma isFn_put_arr {xs ys : Option (List ℕ)} (h : deref s a = some (.arr xs)) :
    IsFn (put s a (.arr ys)) = IsFn s := by
  ext f
  rw [IsFn, IsFn, nsOf_put_arr h]

/-- The stores may change in what corresponds to nothing. -/
lemma Rel.congr (h : Rel R s s') (hd : ∀ a b, R a b → deref t a = deref s a)
    (hd' : ∀ a b, R a b → deref t' b = deref s' b) (hF : IsFn t = IsFn s)
    (hF' : IsFn t' = IsFn s') : Rel R t t' := by
  refine ⟨fun a b hab => ?_, by rw [hF]; exact h.right, by rw [hF']; exact h.left⟩
  rw [hd a b hab, hd' a b hab, hF, hF']
  exact h.obj a b hab

lemma Rel.deref_left (h : Rel R s s') (hab : R a b) : deref s a ≠ none := by
  obtain ⟨o, o', h1, -⟩ := h.obj a b hab
  simp [h1]

lemma Rel.deref_right (h : Rel R s s') (hab : R a b) : deref s' b ≠ none := by
  obtain ⟨o, o', -, h1, -⟩ := h.obj a b hab
  simp [h1]

lemma deref_alloc_old {o : Obj} (h : deref s a ≠ none) : deref (alloc s o).1 a = deref s a := by
  rw [deref_alloc, if_neg]
  rintro rfl
  exact h (deref_fresh s)

lemma Rel.alloc_left (h : Rel R s s') (xs : Option (List ℕ)) : Rel R (alloc s (.arr xs)).1 s' :=
  h.congr (fun _ _ hab => deref_alloc_old (h.deref_left hab)) (fun _ _ _ => rfl)
    (isFn_alloc_arr xs) rfl

lemma Rel.alloc_right (h : Rel R s s') (xs : Option (List ℕ)) : Rel R s (alloc s' (.arr xs)).1 :=
  h.congr (fun _ _ _ => rfl) (fun _ _ hab => deref_alloc_old (h.deref_right hab)) rfl
    (isFn_alloc_arr xs)

lemma Rel.put_left (h : Rel R s s') {xs ys : Option (List ℕ)} (ha : deref s a = some (.arr xs))
    (hout : ∀ b, ¬ R a b) : Rel R (put s a (.arr ys)) s' := by
  refine h.congr (fun x y hxy => ?_) (fun _ _ _ => rfl) (isFn_put_arr ha) rfl
  rw [deref_put ha, if_neg]
  rintro rfl
  exact hout y hxy

lemma Rel.put_right (h : Rel R s s') {xs ys : Option (List ℕ)} (hb : deref s' b = some (.arr xs))
    (hout : ∀ a, ¬ R a b) : Rel R s (put s' b (.arr ys)) := by
  refine h.congr (fun _ _ _ => rfl) (fun x y hxy => ?_) rfl (isFn_put_arr hb)
  rw [deref_put hb, if_neg]
  rintro rfl
  exact hout x hxy

/-- One more pair. -/
def addPair (R : ℕ → ℕ → Prop) (a b : ℕ) : ℕ → ℕ → Prop := fun x y => R x y ∨ x = a ∧ y = b

/-- Arrays with corresponding elements may correspond. -/
lemma Rel.add_arr (h : Rel R s s') {xs xs' : Option (List ℕ)} (ha : deref s a = some (.arr xs))
    (hb : deref s' b = some (.arr xs')) (hx : ArrRel R xs xs') : Rel (addPair R a b) s s' := by
  have hna : ¬ IsFn s a := by simp [IsFn, nsOf, ha]
  have hnb : ¬ IsFn s' b := by simp [IsFn, nsOf, hb]
  have hnew : News R (addPair R a b) (IsFn s) (IsFn s') := by
    rintro x y (hxy | ⟨rfl, rfl⟩)
    · exact .inl hxy
    · exact .inr ⟨hna, hnb⟩
  refine ⟨?_, ?_, ?_⟩
  · rintro x y (hxy | ⟨rfl, rfl⟩)
    · obtain ⟨o, o', h1, h2, ho⟩ := h.obj x y hxy
      exact ⟨o, o', h1, h2, ho.mono (fun _ _ => .inl) hnew (fun _ => id) fun _ => id⟩
    · exact ⟨_, _, ha, hb, .arr (hx.mono fun _ _ => .inl)⟩
  · rintro x y y' (hxy | ⟨rfl, rfl⟩) (hxy' | ⟨hx', hy'⟩) hf
    · exact h.right x y y' hxy hxy' hf
    · exact absurd (hx' ▸ hf) hna
    · exact absurd hf hna
    · exact hy'
  · rintro x x' y (hxy | ⟨rfl, rfl⟩) (hxy' | ⟨hx', hy'⟩) hf
    · exact h.left x x' y hxy hxy' hf
    · exact absurd (hy' ▸ hf) hnb
    · exact absurd hf hnb
    · exact hx'

lemma isFn_alloc_fn {ns : Ns} {args exp f : ℕ} :
    IsFn (alloc s (.fn ns args exp)).1 f ↔ IsFn s f ∨ f = s.length + 1 := by
  rw [IsFn, nsOf_alloc_fn, Function.update_apply]
  by_cases h : f = s.length + 1
  · simp [h]
  · simp [h, IsFn]

lemma not_isFn_fresh : ¬ IsFn s (s.length + 1) := by
  rw [IsFn, nsOf, deref_fresh]
  simp

/-- New functions correspond. -/
lemma Rel.alloc_fn (h : Rel R s s') {ns ns' : Ns} {args args' exp exp' : ℕ} (hns : NsRel R ns ns')
    (hk : KeysIn (IsFn s) ns) (hk' : KeysIn (IsFn s') ns') (ha : R args args') (he : R exp exp') :
    Rel (addPair R (s.length + 1) (s'.length + 1)) (alloc s (.fn ns args exp)).1
      (alloc s' (.fn ns' args' exp')).1 := by
  have hnew : News R (addPair R (s.length + 1) (s'.length + 1)) (IsFn s) (IsFn s') := by
    rintro x y (hxy | ⟨rfl, rfl⟩)
    · exact .inl hxy
    · exact .inr ⟨not_isFn_fresh, not_isFn_fresh⟩
  have hl : ∀ y, ¬ R (s.length + 1) y := fun y hy => h.deref_left hy (deref_fresh s)
  have hr : ∀ x, ¬ R x (s'.length + 1) := fun x hx => h.deref_right hx (deref_fresh s')
  have hmono : ∀ {o o'}, ObjRel R (IsFn s) (IsFn s') o o' → ObjRel (addPair R (s.length + 1)
      (s'.length + 1)) (IsFn (alloc s (.fn ns args exp)).1)
      (IsFn (alloc s' (.fn ns' args' exp')).1) o o' := fun ho =>
    ho.mono (fun _ _ => .inl) hnew (fun f hf => isFn_alloc_fn.mpr (.inl hf)) fun f hf =>
      isFn_alloc_fn.mpr (.inl hf)
  refine ⟨?_, ?_, ?_⟩
  · rintro x y (hxy | ⟨rfl, rfl⟩)
    · obtain ⟨o, o', h1, h2, ho⟩ := h.obj x y hxy
      exact ⟨o, o', by rw [deref_alloc_old (by simp [h1]), h1],
        by rw [deref_alloc_old (by simp [h2]), h2], hmono ho⟩
    · refine ⟨_, _, by rw [deref_alloc, if_pos rfl], by rw [deref_alloc, if_pos rfl], hmono ?_⟩
      exact .fn hns hk hk' ha he
  · rintro x y y' (hxy | ⟨rfl, rfl⟩) (hxy' | ⟨hx', hy'⟩) hf
    · rcases isFn_alloc_fn.mp hf with hf | rfl
      · exact h.right x y y' hxy hxy' hf
      · exact absurd hxy (hl y)
    · exact absurd (hx' ▸ hxy) (hl y)
    · exact absurd hxy' (hl y')
    · exact hy'
  · rintro x x' y (hxy | ⟨rfl, rfl⟩) (hxy' | ⟨hx', hy'⟩) hf
    · rcases isFn_alloc_fn.mp hf with hf | rfl
      · exact h.left x x' y hxy hxy' hf
      · exact absurd hxy (hr x)
    · exact absurd (hy' ▸ hxy) (hr x)
    · exact absurd hxy' (hr x')
    · exact hx'

/-! ### What objects hold -/

/-- The object `a` has the object `b` in it. -/
inductive Holds (s : Store) (a : ℕ) : ℕ → Prop
  | elem {xs : List ℕ} {b : ℕ} (h : Interp.elems s a = some xs) (hb : b ∈ xs) : Holds s a b
  | args {ns : Ns} {args exp : ℕ} (h : deref s a = some (.fn ns args exp)) : Holds s a args
  | exp {ns : Ns} {args exp : ℕ} (h : deref s a = some (.fn ns args exp)) : Holds s a exp
  | val {ns : Ns} {args exp v : ℕ} {k : Key} (h : deref s a = some (.fn ns args exp))
    (hv : ns k = some v) : Holds s a v

lemma forall₂_restrict {K : ℕ → Prop} {xs xs' : List ℕ} (hx : List.Forall₂ (VRel R) xs xs')
    (hK : ∀ b ∈ xs', K b) : List.Forall₂ (VRel fun a b => R a b ∧ K b) xs xs' := by
  induction hx with
  | nil => exact .nil
  | cons h hx ih =>
    rw [List.forall_mem_cons] at hK
    exact .cons (h.imp_right fun hab => ⟨hab, hK.1⟩) (ih hK.2)

/-- A correspondence may be restricted to objects of the second store that hold no others. -/
lemma Rel.restrict (h : Rel R s s') {K : ℕ → Prop} (hK : ∀ a b, K a → Holds s' a b → K b) :
    Rel (fun a b => R a b ∧ K b) s s' := by
  refine ⟨fun a b hab => ?_, fun a b b' hb hb' => h.right a b b' hb.1 hb'.1,
    fun a a' b ha ha' => h.left a a' b ha.1 ha'.1⟩
  obtain ⟨o, o', h1, h2, ho⟩ := h.obj a b hab.1
  refine ⟨o, o', h1, h2, ?_⟩
  cases ho with
  | str h0 => exact .str h0
  | num h0 => exact .num h0
  | arr hx =>
    cases hx with
    | none => exact .arr .none
    | some hx =>
      refine .arr (.some (forall₂_restrict hx fun x hmem => hK b x hab.2 (.elem ?_ hmem)))
      rw [Interp.elems, h2]
  | @fn ns ns' _ _ _ _ hns hk hk' ha he =>
    refine .fn (fun k k' hkk => ?_) hk hk' ⟨ha, hK b _ hab.2 (.args h2)⟩
      ⟨he, hK b _ hab.2 (.exp h2)⟩
    have hkR : KeyRel R k k' := by
      cases hkk with
      | words ws => exact .words ws
      | fn hf => exact .fn hf.1
    have hval := hns k k' hkR
    generalize hv : ns k = v at hval
    generalize hv' : ns' k' = v' at hval
    cases hval with
    | none => exact .none
    | some hvv => exact .some ⟨hvv, hK b _ hab.2 (.val h2 hv')⟩

lemma isFn_put_fn {f args exp : ℕ} {o : Obj} {ns : Ns} (hd : deref s f = some o) (hf : IsFn s f) :
    IsFn (put s f (.fn ns args exp)) = IsFn s := by
  ext g
  rw [IsFn, nsOf_put_fn hd, Function.update_apply]
  split_ifs with hg
  · simpa [hg] using hf
  · rfl

/-- Corresponding functions may change in the same way. -/
lemma Rel.put_fn (h : Rel R s s') {f f' : ℕ} (hf : R f f') (hfn : IsFn s f) {ns ns' : Ns}
    {args args' exp exp' : ℕ} (hns : NsRel R ns ns') (hk : KeysIn (IsFn s) ns)
    (hk' : KeysIn (IsFn s') ns') (ha : R args args') (he : R exp exp') :
    Rel R (put s f (.fn ns args exp)) (put s' f' (.fn ns' args' exp')) := by
  have hfn' := (h.isFn hf).mp hfn
  obtain ⟨o, o', hd, hd', -⟩ := h.obj f f' hf
  have hF : IsFn (put s f (.fn ns args exp)) = IsFn s := isFn_put_fn hd hfn
  have hF' : IsFn (put s' f' (.fn ns' args' exp')) = IsFn s' := isFn_put_fn hd' hfn'
  refine ⟨fun a b hab => ?_, by rw [hF]; exact h.right, by rw [hF']; exact h.left⟩
  rw [hF, hF', deref_put hd, deref_put hd']
  by_cases haf : a = f
  · subst haf
    cases h.right _ _ _ hf hab hfn
    rw [if_pos rfl, if_pos rfl]
    exact ⟨_, _, rfl, rfl, .fn hns hk hk' ha he⟩
  · have hbf : b ≠ f' := by
      rintro rfl
      exact haf (h.left _ _ _ hf hab hfn')
    rw [if_neg haf, if_neg hbf]
    exact h.obj a b hab

end LispMachine.EvalRel
