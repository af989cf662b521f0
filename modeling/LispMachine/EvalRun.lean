import LispMachine.EvalSim

/-!
The agreement of the two evaluators: what `eval_fn` and its kin compute, `_run_prog` computes on
its stack of frames.

The stack machine reads the result of a call from the variable `ret`, which a frame over an empty
list does not assign, and unlinks the function of the call from its parent. A null pointer that is
appended to a list loses the list, and the counts go through null when it is deleted. So it is asked
of a call that the body is a list with an element, of a return that the function has a parent, and
of an element that it has a value; then no list is lost in the run. What is given back to the heap
stays as it is, but for the function of a call, which `del_fn` has cleared: at a return it must be
nothing that is still in use.
-/

namespace LispMachine.EvalRun

open Relation
open LispMachine.Interp LispMachine.InterpStep LispMachine.EvalFn LispMachine.EvalRel
open LispMachine.EvalSim

/-- What is asked of calls, of returns and of elements. -/
def meets : Check where
  call s exp := match elems s exp with
    | some (_ :: _) => true
    | _ => false
  ret s f := match deref s f with
    | some (.fn ns _ _) => (ns sup).isSome
    | _ => false
  value v := v ≠ 0

variable {ω : Type} {N : Native ω} {R R' : ℕ → ℕ → Prop} {s s₁ t t' : Store} {c c₀ c' : Config ω}
  {fr : Frame} {rest : List Frame} {outer : Set ℕ}

/-! ### Runs without lost lists -/

/-- No array has lost its elements. -/
def Whole (s : Store) : Prop := ∀ a, deref s a ≠ some (.arr none)

lemma whole_alloc (h : Whole s) {o : Obj} (ho : o ≠ .arr none) : Whole (alloc s o).1 := by
  intro a ha
  rw [deref_alloc] at ha
  split_ifs at ha
  · exact ho (Option.some.inj ha)
  · exact h a ha

lemma whole_put (h : Whole s) {a : ℕ} {o o' : Obj} (hd : deref s a = some o') (ho : o ≠ .arr none) :
    Whole (put s a o) := by
  intro b hb
  rw [deref_put hd] at hb
  split_ifs at hb
  · exact ho (Option.some.inj hb)
  · exact h b hb

/-- A round of the machine. -/
def Round (N : Native ω) (c c' : Config ω) : Prop := ∃ n, step N c n = some c'

/-- A round after which no list is lost, and any number of them. -/
def Step (N : Native ω) (c c' : Config ω) : Prop := Round N c c' ∧ Whole c'.store

abbrev Steps (N : Native ω) : Config ω → Config ω → Prop := ReflTransGen (Step N)

lemma Steps.whole (h : Steps N c c') (hc : Whole c.store) : Whole c'.store := by
  rcases h.cases_tail with rfl | ⟨_, -, hs⟩
  · exact hc
  · exact hs.2

/-- A round that is known, and any number of them after it. -/
def Goes (N : Native ω) (x : Option (Config ω)) (c' : Config ω) : Prop :=
  ∃ c, x = some c ∧ Whole c.store ∧ Steps N c c'

lemma Goes.steps {n : ℕ} (h : Goes N (step N c n) c') : Steps N c c' := by
  obtain ⟨c₁, h1, h2, h3⟩ := h
  exact .head ⟨⟨n, h1⟩, h2⟩ h3

/-! ### What is in use -/

/-- What a frame still uses. -/
def FrameUses (s : Store) (fr : Frame) (b : ℕ) : Prop :=
  b = fr.self ∨ b = fr.exp ∨ b = fr.tmp ∨ b ∈ fr.opStk ∨ ∃ xs, elems s fr.tmp = some xs ∧ b ∈ xs

/-- What the frames, and those who wait for their end, still use. -/
def Uses (outer : Set ℕ) (s : Store) (frames : List Frame) (b : ℕ) : Prop :=
  b ∈ outer ∨ ∃ fr ∈ frames, FrameUses s fr b

/-- What can be reached, at a return, from the frames that are left and the list that is returned.
-/
def Live (outer : Set ℕ) (c : Config ω) (rest : List Frame) (b : ℕ) : Prop :=
  ∃ a, (Uses outer c.store rest a ∨ a = c.ret) ∧ ReflTransGen (Holds c.store) a b

/-- The collector does not give back at a return what is still in use. -/
def SparesLive (N : Native ω) (outer : Set ℕ) (c : Config ω) : Prop :=
  ∀ fr rest ns args exp, c.frames = fr :: rest → fr.state = .cfRet →
    deref c.store fr.tmp = some (.fn ns args exp) →
    N.gcDelObj c.world (put c.store fr.tmp (.fn (setRemoveStrKey ns sup) 0 0)) fr.tmp →
    ¬ Live outer c rest fr.tmp

lemma elems_of_deref {a : ℕ} {xs : List ℕ} (h : deref s a = some (.arr (some xs))) :
    elems s a = some xs := by
  rw [elems, h]

lemma FrameUses.mono {b : ℕ} (h : FrameUses s fr b) (hk : KeepsArr s t) : FrameUses t fr b := by
  refine h.imp_right (.imp_right (.imp_right (.imp_right ?_)))
  rintro ⟨xs, hxs, hb⟩
  exact ⟨xs, elems_of_deref (hk.arr _ _ (elems_eq hxs)), hb⟩

lemma Uses.mono {frames : List Frame} {b : ℕ} (h : Uses outer s frames b) (hk : KeepsArr s t) :
    Uses outer t frames b :=
  h.imp_right fun ⟨fr, hmem, hb⟩ => ⟨fr, hmem, hb.mono hk⟩

lemma uses_cons {b : ℕ} :
    Uses outer s (fr :: rest) b ↔ FrameUses s fr b ∨ Uses outer s rest b := by
  rw [Uses, Uses, List.exists_mem_cons_iff]
  exact or_left_comm

/-- What the evaluators have done when the value `v` is found: the frame is gone, and `ret` holds
the value that corresponds. -/
structure Done (outer : Set ℕ) (R R' : ℕ → ℕ → Prop) (s : Store) (c : Config ω)
    (rest : List Frame) (s₁ : Store) (v : ℕ) (c' : Config ω) : Prop where
  frames : c'.frames = rest
  ext : Ext (Uses outer c.store rest) R R' s s₁ c.store c'.store
  rel : Rel R' s₁ c'.store
  val : VRel R' v c'.ret

/-- The machine performs the operation of a frame, in the run from `c₀`. -/
def OpOk (N : Native ω) (c₀ : Config ω) (outer : Set ℕ)
    (eval : Store → ℕ → ℕ → Option (Store × ℕ)) (n : ℕ) : Prop :=
  ∀ (o : Label) (R : ℕ → ℕ → Prop) (s : Store) (c : Config ω) (v v' self self' : ℕ) (s₁ : Store)
    (v₁ : ℕ) (rest : List Frame), operation meets eval n o s v self = some (s₁, v₁) →
    Steps N c₀ c → Rel R s c.store → R v v' → R self self' →
    c.frames = { self := self', exp := v', state := o } :: rest → (o = .ef → c.ret = v') →
    ∃ R' c', Steps N c c' ∧ Done outer R R' s c rest s₁ v₁ c'

/-- What a round makes that is known belongs to the run from `c₀`. -/
def Continues (N : Native ω) (c₀ : Config ω) (x : Option (Config ω)) : Prop :=
  ∀ c, x = some c → Whole c.store → Steps N c₀ c

lemma continues_step {n : ℕ} (h : Steps N c₀ c) : Continues N c₀ (step N c n) :=
  fun _ hc hw => h.tail ⟨⟨n, hc⟩, hw⟩

variable {eval : Store → ℕ → ℕ → Option (Store × ℕ)} {n : ℕ}

lemma forall₂_imp_mem {xs ys : List ℕ} (h : List.Forall₂ R xs ys)
    (hR : ∀ a b, b ∈ ys → R a b → R' a b) : List.Forall₂ R' xs ys := by
  induction h with
  | nil => exact .nil
  | cons hab _ ih =>
    exact .cons (hR _ _ List.mem_cons_self hab)
      (ih fun a b hb => hR a b (List.mem_cons_of_mem _ hb))

/-- **The operators of an element**: the frame is back, with an empty stack. -/
lemma opsLoop_sim (hop : OpOk N c₀ outer eval n) {self v v₁ : ℕ} {stk : List ℕ}
    (hr : opsLoop meets eval n self stk s v = some (s₁, v₁))
    (hc : Continues N c₀ (stepEf1 c fr rest)) (hw : Whole c.store) (h : Rel R s c.store)
    (hv : VRel R v c.ret) (hself : R self fr.self) (hstk : List.Forall₂ R stk fr.opStk)
    (hst : fr.state = .ef1) : ∃ R' c₁ old,
      (∀ c', Goes N (stepEf1 c₁ { fr with opStk := [], old } rest) c' →
        Goes N (stepEf1 c fr rest) c') ∧
      Continues N c₀ (stepEf1 c₁ { fr with opStk := [], old } rest) ∧ Whole c₁.store ∧
      Ext (Uses outer c.store ({ fr with opStk := [] } :: rest)) R R' s s₁ c.store c₁.store ∧
      Rel R' s₁ c₁.store ∧ VRel R' v₁ c₁.ret := by
  induction stk generalizing s v c fr R with
  | nil =>
    cases hr
    obtain ⟨self', exp', tmp', opStk, old, i, state⟩ := fr
    cases hstk
    exact ⟨R, c, old, fun _ => id, hc, hw, .refl .., h, hv⟩
  | cons op stk ih =>
    obtain ⟨self', exp', tmp', opStk, old, i, state⟩ := fr
    obtain ⟨op', stk', hop', htail, rfl⟩ := List.forall₂_cons_left_iff.mp hstk
    obtain ⟨o, ho, hr⟩ := Option.bind_eq_some_iff.mp hr
    obtain ⟨k, hk, ho⟩ := Option.bind_eq_some_iff.mp ho
    obtain ⟨ov, hov, hr⟩ := Option.bind_eq_some_iff.mp hr
    obtain ⟨⟨s₂, v₂⟩, h1, hr⟩ := Option.bind_eq_some_iff.mp hr
    have hvv := hv.of_ne (ne_zero_of_deref (s := s) (by simp [hov]))
    obtain ⟨k', hk', -, hops⟩ := Rel.keys h hop' hk
    obtain ⟨ov', hov'⟩ := Option.ne_none_iff_exists'.mp (h.deref_right hvv)
    let fr₂ : Frame :=
      { self := self', exp := exp', tmp := tmp', opStk := stk', old := c.ret, i, state }
    let c₂ : Config ω :=
      { c with frames := { self := self', exp := c.ret, state := o } :: fr₂ :: rest }
    have hstep : stepEf1 c ⟨self', exp', tmp', op' :: stk', old, i, state⟩ rest = some c₂ := by
      simp only [stepEf1, hov', Option.bind_some, hk', hops, ho, Option.map_some]
      rfl
    have hc₂ : Steps N c₀ c₂ := hc c₂ hstep hw
    obtain ⟨R₁, c₃, h2, h3⟩ := hop o R s c₂ v c.ret self self' s₂ v₂ (fr₂ :: rest) h1 hc₂ h hvv
      hself rfl fun _ => rfl
    have hself₂ : R₁ self fr₂.self := h3.ext.mono _ _ (uses_cons.mpr (.inl (.inl rfl))) hself
    have hstk₂ : List.Forall₂ R₁ stk fr₂.opStk := forall₂_imp_mem htail fun a b hb =>
      h3.ext.mono a b (uses_cons.mpr (.inl (.inr (.inr (.inr (.inl hb))))))
    have hround : step N c₃ 0 = stepEf1 c₃ fr₂ rest := by
      rw [step, h3.frames]
      cases hst
      rfl
    have hc₃ : Continues N c₀ (stepEf1 c₃ fr₂ rest) := hround ▸ continues_step (hc₂.trans h2)
    obtain ⟨R₂, c₁, old', h4, h5, h6, h7, h8, h9⟩ := ih hr hc₃ (Steps.whole h2 hw) h3.rel h3.val
      hself₂ hstk₂ hst
    refine ⟨R₂, c₁, old', fun c' hc' => ⟨c₂, hstep, hw, h2.trans ?_⟩, h5, h6, .trans
      (h3.ext.weaken fun b hb => ?_) (h7.weaken fun b hb => ?_), h8, h9⟩
    · exact Goes.steps (hround ▸ h4 c' hc')
    · -- the frame has fewer operators than before
      refine uses_cons.mpr ((uses_cons.mp hb).imp_left ?_)
      rintro (h10 | h10 | h10 | h10 | h10)
      · exact .inl h10
      · exact .inr (.inl h10)
      · exact .inr (.inr (.inl h10))
      · cases h10
      · exact .inr (.inr (.inr (.inr h10)))
    · exact uses_cons.mpr ((uses_cons.mp hb).imp (·.mono h3.ext.arrs') (·.mono h3.ext.arrs'))

/-! ### Lists under evaluation -/

/-- Arrays that correspond to nothing, with elements that correspond. -/
structure Built (R : ℕ → ℕ → Prop) (s s' : Store) (tmp tmp' : ℕ) (ys ys' : Option (List ℕ)) :
    Prop where
  left : deref s tmp = some (.arr ys)
  right : deref s' tmp' = some (.arr ys')
  rel : ArrRel R ys ys'
  out : ∀ b, ¬ R tmp b
  out' : ∀ a, ¬ R a tmp'

lemma le_length {s : Store} {r : ℕ} {o : Obj} (h : deref s r = some o) : r ≤ s.length :=
  (deref_isSome.mp (show deref s r ≠ none by simp [h])).2

lemma Built.ext {U : ℕ → Prop} {t s' t' : Store} {tmp tmp' : ℕ} {ys ys' : Option (List ℕ)}
    (h : Built R s s' tmp tmp' ys ys') (hx : Ext U R R' s t s' t')
    (hU : ∀ xs, elems s' tmp' = some xs → ∀ b ∈ xs, U b) : Built R' t t' tmp tmp' ys ys' := by
  refine ⟨hx.arrs.arr _ _ h.left, hx.arrs'.arr _ _ h.right, ?_, fun b hb => ?_, fun a ha => ?_⟩
  · obtain ⟨-, hr, hrel, -, -⟩ := h
    cases hrel with
    | none => exact .none
    | some hrel =>
      refine .some (forall₂_imp_mem hrel fun a b hb hab => hab.imp_right ?_)
      exact hx.mono a b (hU _ (elems_of_deref hr) b hb)
  · rcases hx.left tmp b hb with ⟨b₀, h1⟩ | h1
    · exact h.out b₀ h1
    · exact absurd (le_length h.left) (by omega)
  · rcases hx.right a tmp' ha with ⟨a₀, h1⟩ | h1
    · exact h.out' a₀ h1
    · exact absurd (le_length h.right) (by omega)

lemma keepsArr_put {s t : Store} (h : KeepsArr s t) {x : ℕ} (hx : s.length < x) (o : Obj)
    {o' : Obj} (ht : deref t x = some o') : KeepsArr s (put t x o) := by
  refine ⟨by simpa [put] using h.length_le, fun a xs ha => ?_⟩
  rw [deref_put ht, if_neg, h.arr a xs ha]
  rintro rfl
  exact absurd (le_length ha) (by omega)

/-- **`obj_array_append`** of corresponding values that are there. -/
lemma append_sim {tmp tmp' v v' : ℕ} {ys ys' : Option (List ℕ)}
    (h : Rel R t t') (hw : Whole t') (hb : Built R t t' tmp tmp' ys ys') (hv : VRel R v v')
    (h0 : v ≠ 0) (happ : objArrayAppend t tmp v = some s₁) : ∃ s₁' zs zs',
      objArrayAppend t' tmp' v' = some s₁' ∧ Whole s₁' ∧ Rel R s₁ s₁' ∧
      Built R s₁ s₁' tmp tmp' zs zs' ∧
      ∀ U R₀ s₀ s', Ext U R₀ R s₀ t s' t' → s₀.length < tmp → s'.length < tmp' →
        Ext U R₀ R s₀ s₁ s' s₁' := by
  obtain ⟨xs, h1, rfl⟩ := objArrayAppend_iff.mp happ
  obtain ⟨hl, hr, hrel, hout, hout'⟩ := hb
  cases hl.symm.trans h1
  have h0' : v' ≠ 0 := ne_zero_of_deref (h.deref_right (hv.of_ne h0))
  cases hrel with
  | none => exact absurd hr (hw tmp')
  | @some xs xs' hx =>
    have happ' : appended (some xs) v = some (xs ++ [v]) := if_neg h0
    have happ'' : appended (some xs') v' = some (xs' ++ [v']) := if_neg h0'
    rw [happ']
    refine ⟨_, _, _, objArrayAppend_iff.mpr ⟨_, hr, rfl⟩, ?_,
      (h.put_left hl hout).put_right hr hout', ⟨by rw [deref_put hl, if_pos rfl],
      by rw [deref_put hr, if_pos rfl], ?_, hout, hout'⟩, fun U R₀ s₀ s' hx hs hs' => ?_⟩
    · rw [happ'']
      exact whole_put hw hr (by simp)
    · rw [happ'']
      exact .some (List.rel_append hx (.cons hv .nil))
    · exact ⟨hx.mono, hx.left, hx.right, keepsArr_put hx.arrs hs _ hl,
        keepsArr_put hx.arrs' hs' _ hr⟩

lemma append_other {tmp v a : ℕ} (happ : objArrayAppend s tmp v = some s₁) (ha : a ≠ tmp) :
    deref s₁ a = deref s a := by
  obtain ⟨xs, h1, rfl⟩ := objArrayAppend_iff.mp happ
  rw [deref_put h1, if_neg ha]

/-- **The elements of a list**, from the index `i` on. The stores are compared with those at the
start of the evaluation, where the array under construction was not yet there. -/
lemma evalLoop_sim (hop : OpOk N c₀ outer eval n) {R₀ : ℕ → ℕ → Prop}
    {s₀ s₀' : Store} {k exp self tmp i : ℕ} {xs : List ℕ} {ys ys' : Option (List ℕ)}
    (hr : evalLoop meets eval n exp self tmp k s i = some s₁)
    (hc : Continues N c₀ (stepEf0 c fr rest)) (hw : Whole c.store) (h : Rel R s c.store)
    (hexp : R exp fr.exp) (hself : R self fr.self) (hxs : elems s exp = some xs)
    (hi : fr.i = i) (hlt : i < xs.length) (hstk : fr.opStk = [])
    (hb : Built R s c.store tmp fr.tmp ys ys')
    (hx : Ext (Uses outer s₀' rest) R₀ R s₀ s s₀' c.store)
    (htmp : s₀.length < tmp) (htmp' : s₀'.length < fr.tmp) :
    ∃ R' c' zs zs', Goes N (stepEf0 c fr rest) c' ∧ c'.frames = rest ∧ c'.ret = fr.tmp ∧
      Ext (Uses outer s₀' rest) R₀ R' s₀ s₁ s₀' c'.store ∧ Rel R' s₁ c'.store ∧
      Built R' s₁ c'.store tmp fr.tmp zs zs' := by
  induction k generalizing s i c fr R ys ys' with
  | zero => cases hr
  | succ k ih =>
    subst hi
    rw [evalLoop, hxs, Option.bind_some, if_pos hlt] at hr
    obtain ⟨⟨v, j, stk⟩, h1, hr⟩ := Option.bind_eq_some_iff.mp hr
    obtain ⟨⟨s₂, v₂⟩, h2, hr⟩ := Option.bind_eq_some_iff.mp hr
    simp only at hr
    split_ifs at hr with hv₂
    obtain ⟨s₃, h3, hr⟩ := Option.bind_eq_some_iff.mp hr
    obtain ⟨xs', h4, h5⟩ := h.elems hexp hxs
    obtain ⟨v', stk', h6, h7, h8⟩ := opLoop_sim h (List.forall₂_drop fr.i h5) .nil h1
    let fr₁ : Frame := { fr with i := j, opStk := stk', state := .ef1, old := 0 }
    have hstep : stepEf0 c fr rest = stepEf1 { c with ret := v' } fr₁ rest := by
      rw [stepEf0, h4, Option.bind_some, hstk, h6, Option.bind_some]
    obtain ⟨R₁, c₁, old, h9, hc₁, hw₁, h10, h11, h12⟩ :=
      @opsLoop_sim _ N R _ _ { c with ret := v' } c₀ fr₁ rest outer _ _ hop _ _ _ _ h2
        (hstep ▸ hc) hw h (.inr h7) hself h8 rfl
    have hb₁ : Built R₁ s₂ c₁.store tmp fr.tmp ys ys' := hb.ext h10 fun ws hws b hmem =>
      uses_cons.mpr (.inl (.inr (.inr (.inr (.inr ⟨ws, hws, hmem⟩)))))
    obtain ⟨s₃', zs, zs', h13, hw₃, h14, h15, h16⟩ := append_sim h11 hw₁ hb₁ h12
      (by simpa [meets] using hv₂) h3
    have hx₂ : Ext (Uses outer s₀' rest) R₀ R₁ s₀ s₂ s₀' c₁.store :=
      hx.trans (h10.weaken fun b hb => uses_cons.mpr (.inr (hb.mono hx.arrs')))
    have hx₃ := h16 _ R₀ s₀ _ hx₂ htmp htmp'
    have hexp₁ : R₁ exp fr.exp := h10.mono _ _ (uses_cons.mpr (.inl (.inr (.inl rfl)))) hexp
    have hself₁ : R₁ self fr.self := h10.mono _ _ (uses_cons.mpr (.inl (.inl rfl))) hself
    -- the list is as it was
    have hne : exp ≠ tmp := by
      rintro rfl
      exact hb.out _ hexp
    have hne' : fr.exp ≠ fr.tmp := fun heq => hb.out' exp (heq ▸ hexp)
    have hxs₃ : elems s₃ exp = some xs := elems_of_deref <| by
      rw [append_other h3 hne]
      exact h10.arrs.arr _ _ (elems_eq hxs)
    have hxs₃' : elems s₃' fr.exp = some xs' := elems_of_deref <| by
      rw [append_other h13 hne']
      exact h10.arrs'.arr _ _ (elems_eq h4)
    let fr₂ : Frame := { fr₁ with opStk := [], old, i := j + 1, state := .ef0 }
    have hlast : stepEf1 c₁ { fr₁ with opStk := [], old } rest =
        some (if j + 1 ≥ xs.length then c₁.exit rest s₃' fr.tmp
          else { c₁ with store := s₃', frames := fr₂ :: rest }) := by
      have h17 : objArrayAppend c₁.store fr₁.tmp c₁.ret = some s₃' := h13
      have h18 : objArraySize s₃' fr₁.exp = some xs.length := by
        rw [objArraySize, show fr₁.exp = fr.exp from rfl, hxs₃', Option.map_some, h5.length_eq]
      simp only [stepEf1, h17, Option.bind_some, h18, Option.map_some]
      rfl
    by_cases hj : j + 1 ≥ xs.length
    · rw [if_pos hj] at hlast
      refine ⟨R₁, c₁.exit rest s₃' fr.tmp, zs, zs', ?_, rfl, rfl, ?_⟩
      · rw [hstep]
        exact h9 _ ⟨_, hlast, hw₃, .refl⟩
      · cases k with
        | zero => cases hr
        | succ k =>
          rw [evalLoop, hxs₃, Option.bind_some, if_neg (by omega)] at hr
          cases hr
          exact ⟨hx₃, h14, h15⟩
    · rw [if_neg hj] at hlast
      let c₂ : Config ω := { c₁ with store := s₃', frames := fr₂ :: rest }
      have hround : step N c₂ 0 = stepEf0 c₂ fr₂ rest := rfl
      have hc₂ : Continues N c₀ (stepEf0 c₂ fr₂ rest) :=
        hround ▸ continues_step (hc₁ c₂ hlast hw₃)
      obtain ⟨R₂, c', us, us', h17, h18, h19, h20⟩ := ih (c := c₂) hr hc₂ hw₃ h14 hexp₁ hself₁
        hxs₃ rfl (by omega) rfl h15 hx₃ htmp'
      refine ⟨R₂, c', us, us', ?_, h18, h19, h20⟩
      rw [hstep]
      exact h9 _ ⟨c₂, hlast, hw₃, Goes.steps (hround ▸ h17)⟩

/-- The machine evaluates a list that has an element to a new array, in the run from `c₀`. -/
def EvalOk (N : Native ω) (c₀ : Config ω) (outer : Set ℕ)
    (eval : Store → ℕ → ℕ → Option (Store × ℕ)) : Prop :=
  ∀ (R : ℕ → ℕ → Prop) (s : Store) (c : Config ω) (exp exp' self self' x : ℕ) (xs : List ℕ)
    (s₁ : Store) (v₁ : ℕ) (rest : List Frame), eval s exp self = some (s₁, v₁) → Steps N c₀ c →
    Rel R s c.store → R exp exp' → R self self' → elems s exp = some (x :: xs) →
    c.frames = { self := self', exp := exp', state := .ef } :: rest →
    ∃ R' c' ys ys', Steps N c c' ∧ c'.frames = rest ∧
      Ext (Uses outer c.store rest) R R' s s₁ c.store c'.store ∧ Rel R' s₁ c'.store ∧
      Built R' s₁ c'.store v₁ c'.ret ys ys' ∧ s.length < v₁ ∧ c.store.length < c'.ret

/-- **`eval_fn`** of a list that has an element. -/
lemma evalFn_sim (h₀ : Whole c₀.store) (hop : OpOk N c₀ outer (evalFn meets n) n) :
    EvalOk N c₀ outer (evalFn meets (n + 1)) := by
  intro R s c exp exp' self self' x xs s₁ v₁ rest hr hc h hexp hself hxs hfr
  rw [evalFn, elems_eq hxs] at hr
  obtain ⟨s₂, hloop, hr⟩ := Option.map_eq_some_iff.mp hr
  cases hr
  obtain ⟨xs', h1, h2⟩ := h.elems hexp hxs
  let fr : Frame := { self := self', exp := exp', tmp := c.store.length + 1, state := .ef }
  let c₁ : Config ω := { c with store := (alloc c.store (.arr (some []))).1 }
  have hw : Whole c₁.store := whole_alloc (Steps.whole hc h₀) (by simp)
  have hout : ∀ b, ¬ R (s.length + 1) b := fun b hb => h.deref_left hb (deref_fresh s)
  have hout' : ∀ a, ¬ R a (c.store.length + 1) := fun a ha => h.deref_right ha (deref_fresh _)
  have hb : Built R (alloc s (.arr (some []))).1 c₁.store (s.length + 1) fr.tmp (some [])
      (some []) :=
    ⟨by rw [deref_alloc, if_pos rfl], by rw [deref_alloc, if_pos rfl], .some .nil, hout, hout'⟩
  have hx : Ext (Uses outer c.store rest) R R s (alloc s (.arr (some []))).1 c.store c₁.store :=
    .stores (keepsArr_alloc ..) (keepsArr_alloc ..)
  have hxs₁ := elems_of_deref (hx.arrs.arr _ _ (elems_eq hxs))
  have hrel : Rel R (alloc s (.arr (some []))).1 c₁.store := (h.alloc_left _).alloc_right _
  have hlen : ¬ 0 ≥ xs'.length := by
    rw [← h2.length_eq]
    simp
  have hround : step N c 0 = stepEf0 c₁ fr rest := by
    rw [step, hfr]
    simp only [stepEf, elems_eq h1, Option.bind_some, if_neg hlen]
    rfl
  have hc₁ : Continues N c₀ (stepEf0 c₁ fr rest) := hround ▸ continues_step hc
  obtain ⟨R', c', zs, zs', h3, h4, h5, h6, h7, h8⟩ := evalLoop_sim hop hloop hc₁ hw hrel hexp
    hself hxs₁ rfl (by simp) rfl hb hx (by simp) (Nat.lt_succ_self _)
  refine ⟨R', c', zs, zs', ?_, h4, h6, h7, h5 ▸ h8, by simp, h5 ▸ Nat.lt_succ_self _⟩
  exact Goes.steps (hround ▸ h3)

/-! ### The operators -/

section
variable {v v' self self' v₁ : ℕ}

/-- A round that is a whole operation. -/
lemma steps_round (hr : step N c n = some c') (hw : Whole c'.store) : Steps N c c' :=
  .single ⟨⟨n, hr⟩, hw⟩

/-- **`def_fn`** -/
lemma defFn_sim (hr : defFn s v self = some (s₁, v₁)) (hw : Whole c.store) (h : Rel R s c.store)
    (hv : R v v') (hself : R self self')
    (hfr : c.frames = { self := self', exp := v', state := .df } :: rest) :
    ∃ R' c', Steps N c c' ∧ Done outer R R' s c rest s₁ v₁ c' := by
  obtain ⟨args, h1, hr⟩ := Option.bind_eq_some_iff.mp hr
  obtain ⟨exp, h2, hr⟩ := Option.bind_eq_some_iff.mp hr
  obtain ⟨args', h3, h4⟩ := objArrayIdx_sim h hv h1
  obtain ⟨exp', h5, h6⟩ := objArrayIdx_sim h hv h2
  obtain ⟨⟨s₁', f'⟩, R', h7, h8, h9, h10, o, rfl, ho⟩ := newFn_sim h (.some hself) h4 h6 hr
  refine ⟨R', c.exit rest (alloc c.store o).1 f', steps_round (n := 0) ?_ (whole_alloc hw (ho _)),
    ⟨rfl, h8, h9, .inr h10⟩⟩
  rw [step, hfr]
  simp only [stepDf, h3, h5, h7, Option.bind_some, Option.map_some]

/-- **`name_fn`** -/
lemma nameFn_sim (hr : nameFn s v self = some (s₁, v₁)) (hw : Whole c.store) (h : Rel R s c.store)
    (hv : R v v') (hself : R self self')
    (hfr : c.frames = { self := self', exp := v', state := .nf } :: rest) :
    ∃ R' c', Steps N c c' ∧ Done outer R R' s c rest s₁ v₁ c' := by
  unfold nameFn at hr
  split at hr
  · rename_i ns args exp hd
    obtain ⟨key, h1, hr⟩ := Option.bind_eq_some_iff.mp hr
    obtain ⟨k, h2, hr⟩ := Option.bind_eq_some_iff.mp hr
    obtain ⟨res, h3, hr⟩ := Option.bind_eq_some_iff.mp hr
    obtain ⟨ns₁, h4, hr⟩ := Option.map_eq_some_iff.mp hr
    cases hr
    obtain ⟨ns', args', exp', hd', hns, hk, hk', ha, he⟩ := h.fn hself hd
    obtain ⟨key', h5, h6⟩ := objArrayIdx_sim h hv h1
    obtain ⟨k', h7, h8, -⟩ := Rel.keys h (h6.of_ne (ne_zero_of_key h2)) h2
    obtain ⟨res', h9, h10⟩ := objArrayIdx_sim h hv h3
    have hsp : Spaces R s c.store ns ns' := ⟨hns, hk, hk'⟩
    obtain ⟨ns₁', h11, h12⟩ := setAddStrKey_sim h (hsp.update h h8 .none) h8 h10 h4
    refine ⟨R, c.exit rest (put c.store self' (.fn ns₁' args' exp')) res',
      steps_round (n := 0) ?_ (whole_put hw hd' (by simp)), rfl,
      .stores (keepsArr_put_fn hd) (keepsArr_put_fn hd'), ?_, h10⟩
    · rw [step, hfr]
      simp only [stepNf, hd', h5, h7, h9, Option.bind_some, setRemoveStrKey, h11, Option.map_some]
    · exact h.put_fn hself (by simp [IsFn, nsOf_fn hd]) h12.rel h12.left h12.right ha he
  · cases hr

/-- **`eval_fn`**, as the operator `>`. -/
lemma reduce_sim (hev : EvalOk N c₀ outer (evalFn meets n)) (h₀ : Whole c₀.store)
    (hr : evalFn meets n s v self = some (s₁, v₁)) (hc : Steps N c₀ c) (h : Rel R s c.store)
    (hv : R v v') (hself : R self self')
    (hfr : c.frames = { self := self', exp := v', state := .ef } :: rest) (hret : c.ret = v') :
    ∃ R' c', Steps N c c' ∧ Done outer R R' s c rest s₁ v₁ c' := by
  obtain ⟨o, o', hd, hd', ho⟩ := h.obj v v' hv
  have hw : Whole c.store := Steps.whole hc h₀
  cases n with
  | zero => cases hr
  | succ n =>
    -- what is not a list with an element stays in `ret`
    have hleave : (∀ xs, o ≠ .arr xs) → s₁ = s ∧ v₁ = v ∧ stepEf c
        { self := self', exp := v', state := .ef } rest = some (c.exit rest c.store c.ret) := by
      intro hno
      cases ho with
      | arr => exact absurd rfl (hno _)
      | str | num | fn =>
        rw [evalFn, hd] at hr
        cases hr
        simp only [stepEf, hd', and_self]
    by_cases hno : ∀ xs, o ≠ .arr xs
    · obtain ⟨rfl, rfl, hstep⟩ := hleave hno
      refine ⟨R, c.exit rest c.store c.ret, steps_round (n := 0) ?_ hw, rfl, .refl .., h, .inr ?_⟩
      · rw [step, hfr]
        exact hstep
      · exact hret ▸ hv
    · push Not at hno
      obtain ⟨xs, rfl⟩ := hno
      have hold : deref (alloc s (.arr (some []))).1 v = deref s v :=
        deref_alloc_old (h.deref_left hv)
      have hrun : ∀ xs, deref s v = some (.arr xs) →
          (evalLoop meets (evalFn meets n) n v self (s.length + 1) n
            (alloc s (.arr (some []))).1 0).map (fun t => (t, s.length + 1)) = some (s₁, v₁) := by
        intro xs hxs
        rw [evalFn, hxs] at hr
        exact hr
      cases ho with
      | @arr _ xs' hx =>
        cases hx with
        | none => exact absurd hd' (hw v')
        | @some xs xs' hx =>
          cases hx with
          | nil =>
            obtain ⟨s₂, hloop, hr⟩ := Option.map_eq_some_iff.mp (hrun _ hd)
            cases hr
            cases n with
            | zero => cases hloop
            | succ n =>
              have hnil : elems (alloc s (.arr (some []))).1 v = some [] := by
                rw [elems, hold, hd]
              rw [evalLoop, hnil, Option.bind_some, if_neg (by simp)] at hloop
              cases hloop
              have hnew : deref (alloc s (.arr (some []))).1 (s.length + 1) =
                  some (.arr (some [])) := by
                rw [deref_alloc, if_pos rfl]
              refine ⟨addPair R (s.length + 1) v', c.exit rest c.store c.ret,
                steps_round (n := 0) ?_ hw, rfl,
                ⟨fun _ _ _ => .inl, ?_, ?_, keepsArr_alloc .., .refl _⟩,
                (h.alloc_left _).add_arr hnew hd' (.some .nil), .inr (.inr ⟨rfl, hret⟩)⟩
              · rw [step, hfr]
                simp only [stepEf, hd', Option.bind_some, List.length_nil, ge_iff_le, le_refl,
                  if_true]
              · rintro a b (hab | ⟨rfl, rfl⟩)
                · exact .inl ⟨b, hab⟩
                · exact .inr (Nat.lt_succ_self _)
              · rintro a b (hab | ⟨rfl, rfl⟩)
                · exact .inl ⟨a, hab⟩
                · exact .inl ⟨v, hv⟩
          | cons hxx hx =>
            obtain ⟨R', c', ys, ys', h1, h2, h3, h4, h5, h6, h7⟩ := hev R s c v v' self self' _ _ s₁
              v₁ rest hr hc h hv hself (elems_of_deref hd) hfr
            refine ⟨addPair R' v₁ c'.ret, c', h1, h2, ⟨?_, ?_, ?_, h3.arrs, h3.arrs'⟩,
              h4.add_arr h5.left h5.right h5.rel, .inr (.inr ⟨rfl, rfl⟩)⟩
            · exact fun a b hb hab => .inl (h3.mono a b hb hab)
            · rintro a b (hab | ⟨rfl, rfl⟩)
              · exact h3.left a b hab
              · exact .inr h6
            · rintro a b (hab | ⟨rfl, rfl⟩)
              · exact h3.right a b hab
              · exact .inr h7

end

/-! ### Returns -/

/-- `del_fn` of a function that is not given back leaves the store as it is. -/
lemma delFn_eq {w : ω} {f args exp p : ℕ} {ns : Ns} (hd : deref t f = some (.fn ns args exp))
    (hgc : N.gcDelObj w (put t f (.fn (setRemoveStrKey ns sup) 0 0)) f = false)
    (hp : ns sup = some p) (hpo : deref t p ≠ none) : delFn N w t f = some t := by
  have hput : ∀ o o', put (put t f o) f o' = put t f o' := by
    intro o o'
    simp [put]
  have hself : put t f (.fn ns args exp) = t := by
    cases f with
    | zero => cases hd
    | succ f =>
      obtain ⟨hlt, hget⟩ := List.getElem?_eq_some_iff.mp hd
      rw [put, Nat.add_sub_cancel, ← hget, List.set_getElem_self]
  have hupd : Function.update (setRemoveStrKey ns sup) sup (some p) = ns := by
    rw [setRemoveStrKey, Function.update_idem, ← hp, Function.update_eq_self]
  have hpo' : ∃ o, deref (put t f (.fn (setRemoveStrKey ns sup) 0 0)) p = some o := by
    rw [deref_put hd]
    split_ifs
    · exact ⟨_, rfl⟩
    · exact Option.ne_none_iff_exists'.mp hpo
  obtain ⟨o, ho⟩ := hpo'
  have hnone : setRemoveStrKey ns sup sup = none := by simp [setRemoveStrKey]
  simp only [delFn, hd, hp, hgc, Bool.false_eq_true, if_false, setAddStrKey, Option.bind_some, ho,
    Option.map_some, hnone, hput, hupd, hself]

/-- **`del_fn`** at a return: what is in use still corresponds. -/
lemma delFn_sim (hgc : SparesLive N outer c) (hfr : c.frames = fr :: rest)
    (hst : fr.state = .cfRet) (hw : Whole c.store) (h : Rel R s c.store) {args exp p : ℕ} {ns : Ns}
    (hd : deref c.store fr.tmp = some (.fn ns args exp)) (hp : ns sup = some p)
    (hpo : deref c.store p ≠ none) : ∃ t R', delFn N c.world c.store fr.tmp = some t ∧ Whole t ∧
      KeepsArr c.store t ∧ Rel R' s t ∧ (∀ a b, R' a b → R a b) ∧
      ∀ a b, Live outer c rest b → R a b → R' a b := by
  cases hg : N.gcDelObj c.world (put c.store fr.tmp (.fn (setRemoveStrKey ns sup) 0 0)) fr.tmp with
  | false =>
    exact ⟨c.store, R, delFn_eq hd hg hp hpo, hw, .refl _, h, fun _ _ => id, fun _ _ _ => id⟩
  | true =>
    have hdead : ¬ Live outer c rest fr.tmp := hgc fr rest ns args exp hfr hst hd hg
    have hrel : Rel (fun a b => R a b ∧ Live outer c rest b) s c.store := by
      refine h.restrict fun a b ha hab => ?_
      obtain ⟨x, hx, hxa⟩ := ha
      exact ⟨x, hx, hxa.tail hab⟩
    have hdel : delFn N c.world c.store fr.tmp =
        some (put c.store fr.tmp (.fn (setRemoveStrKey ns sup) 0 0)) := by
      simp only [delFn, hd, hp, hg, if_true]
    refine ⟨_, _, hdel, whole_put hw hd (by simp), keepsArr_put_fn hd,
      hrel.congr (fun _ _ _ => rfl) (fun a b hab => ?_) rfl
        (isFn_put_fn hd (by simp [IsFn, nsOf_fn hd])),
      fun a b => And.left, fun a b hb hab => ⟨hab, hb⟩⟩
    rw [deref_put hd, if_neg]
    rintro rfl
    exact hdead hab.2

/-- What a call returns of the array that its body was evaluated to. -/
lemma result_sim {res res' v₁ : ℕ} {ys ys' : Option (List ℕ)}
    (h : Rel R t t') (hw : Whole t') (hb : Built R t t' res res' ys ys')
    (hr : result t res = some (s₁, v₁)) :
    ∃ s₁' v₁', result t' res' = some (s₁', v₁') ∧ Whole s₁' ∧ Rel R s₁ s₁' ∧ VRel R v₁ v₁' ∧
      ∀ s s', KeepsArr s t → KeepsArr s' t' → s.length < res → s'.length < res' →
        KeepsArr s s₁ ∧ KeepsArr s' s₁' := by
  obtain ⟨hl, hr', hrel, hout, hout'⟩ := hb
  obtain ⟨len, hlen, hr⟩ := Option.bind_eq_some_iff.mp hr
  obtain ⟨xs, h1, rfl⟩ := Option.map_eq_some_iff.mp hlen
  cases hl.symm.trans (elems_eq h1)
  cases hrel with
  | @some _ xs' hx =>
    have h2 : elems t' res' = some xs' := elems_of_deref hr'
    have hlen' : objArraySize t' res' = some xs.length := by
      rw [objArraySize, h2, Option.map_some, hx.length_eq]
    split_ifs at hr with h0
    · obtain ⟨ret, h3, hr⟩ := Option.bind_eq_some_iff.mp hr
      obtain ⟨o, h4, hr⟩ := Option.bind_eq_some_iff.mp hr
      obtain ⟨s₂, h5, hr⟩ := Option.map_eq_some_iff.mp hr
      cases hr
      obtain ⟨i, h6, h7⟩ := Option.bind_eq_some_iff.mp h3
      cases h1.symm.trans h6
      obtain ⟨ret', h8, h9⟩ := forall₂_get? hx h7
      have hret := h9.of_ne (ne_zero_of_deref (s := t) (by simp [h4]))
      obtain ⟨o', h10⟩ := Option.ne_none_iff_exists'.mp (h.deref_right hret)
      obtain ⟨ys, h11, rfl⟩ := Option.map_eq_some_iff.mp h5
      refine ⟨put t' res' (.arr (some (xs'.set (xs.length - 1) 0))), ret', ?_,
        whole_put hw hr' (by simp), (h.put_left hl hout).put_right hr' hout', .inr hret,
        fun s s' hk hk' hs hs' => ⟨keepsArr_put hk hs _ hl, keepsArr_put hk' hs' _ hr'⟩⟩
      rw [result, hlen', Option.bind_some, if_pos h0, objArrayIdx, h2, Option.bind_some, h8,
        Option.bind_some, h10, Option.bind_some, setObjArrayIdx, h2, Option.map_some,
        Option.map_some]
    · cases hr
      refine ⟨t', 0, ?_, hw, h, .inl ⟨rfl, rfl⟩, fun s s' hk hk' _ _ => ⟨hk, hk'⟩⟩
      rw [result, hlen', Option.bind_some, if_neg h0]

lemma stepCfRet_eq {t s₁ : Store} {v : ℕ} (hret : deref c.store c.ret ≠ none)
    (hdel : delFn N c.world c.store fr.tmp = some t) (hr : result t c.ret = some (s₁, v)) :
    stepCfRet N c fr rest = some (c.exit rest s₁ v) := by
  obtain ⟨o, ho⟩ := Option.ne_none_iff_exists'.mp hret
  rw [stepCfRet, ho, Option.bind_some, hdel, Option.bind_some]
  obtain ⟨len, hlen, hr⟩ := Option.bind_eq_some_iff.mp hr
  rw [hlen, Option.bind_some]
  split_ifs at hr ⊢
  · obtain ⟨ret, h1, hr⟩ := Option.bind_eq_some_iff.mp hr
    obtain ⟨o', h2, hr⟩ := Option.bind_eq_some_iff.mp hr
    obtain ⟨s₂, h3, hr⟩ := Option.map_eq_some_iff.mp hr
    cases hr
    rw [h1, Option.bind_some, h2, Option.bind_some, h3, Option.map_some]
  · cases hr
    rfl

/-! ### Calls -/

/-- **A return**: the function of the call is taken off its parent, and the result from the list. -/
lemma return_sim (hgc : SparesLive N outer c) (hfr : c.frames = fr :: rest)
    (hst : fr.state = .cfRet) (hw : Whole c.store) (h : Rel R s c.store) {tmp res v₁ : ℕ}
    (htmp : R tmp fr.tmp) (hret : meets.ret s tmp) {ys ys' : Option (List ℕ)}
    (hb : Built R s c.store res c.ret ys ys') (hr : result s res = some (s₁, v₁)) :
    ∃ R' s₁' v₁', step N c 0 = some (c.exit rest s₁' v₁') ∧ Whole s₁' ∧ Rel R' s₁ s₁' ∧
      VRel R' v₁ v₁' ∧ (∀ a b, R' a b → R a b) ∧
      (∀ a b, Uses outer c.store rest b → R a b → R' a b) ∧
      ∀ s₀ s₀', KeepsArr s₀ s → KeepsArr s₀' c.store → s₀.length < res → s₀'.length < c.ret →
        KeepsArr s₀ s₁ ∧ KeepsArr s₀' s₁' := by
  obtain ⟨ns, args, exp, p, hd, hp⟩ : ∃ ns args exp p, deref s tmp = some (.fn ns args exp) ∧
      ns sup = some p := by
    simp only [meets] at hret
    split at hret
    · obtain ⟨p, hp⟩ := Option.isSome_iff_exists.mp hret
      exact ⟨_, _, _, p, by assumption, hp⟩
    · cases hret
  obtain ⟨ns', args', exp', hd', hns, -⟩ := h.fn htmp hd
  have hsup := hns sup sup (.words _)
  rw [hp] at hsup
  obtain ⟨p', hp', hpp⟩ : ∃ p', ns' sup = some p' ∧ R p p' := by
    generalize ns' sup = q at hsup
    cases hsup with
    | some hpp => exact ⟨_, rfl, hpp⟩
  obtain ⟨t, R', hdel, hwt, hk, hrel, hsub, hlive⟩ :=
    delFn_sim hgc hfr hst hw h hd' hp' (h.deref_right hpp)
  -- the list that is returned is in use
  have hb' : Built R' s t res c.ret ys ys' := by
    have hx : Ext (Live outer c rest) R R' s s c.store t :=
      ⟨fun a b hb hab => hlive a b hb hab, fun a b hab => .inl ⟨b, hsub a b hab⟩,
        fun a b hab => .inl ⟨a, hsub a b hab⟩, .refl s, hk⟩
    exact hb.ext hx fun xs hxs b hmem => ⟨c.ret, .inr rfl, .single (.elem hxs hmem)⟩
  obtain ⟨s₁', v₁', hr', hw', hrel', hval, hkeep⟩ := result_sim hrel hwt hb' hr
  refine ⟨R', s₁', v₁', ?_, hw', hrel', hval, hsub, fun a b hb hab =>
    hlive a b ⟨b, .inl hb, .refl⟩ hab, fun s₀ s₀' h1 h2 => hkeep s₀ s₀' h1 (h2.trans hk)⟩
  rw [step, hfr]
  simp only [hst]
  exact stepCfRet_eq (by simp [hb.right]) hdel hr'

/-- **`call_fn`**: a call that is checked is performed, from the new function to the return. -/
lemma callFn_sim (hgc : ∀ c, Steps N c₀ c → SparesLive N outer c) (h₀ : Whole c₀.store)
    (hev : EvalOk N c₀ outer (evalFn meets n)) {v v' self self' v₁ : ℕ}
    (hr : callFn meets (evalFn meets n) n s v self = some (s₁, v₁)) (hc : Steps N c₀ c)
    (h : Rel R s c.store) (hv : R v v') (hself : R self self')
    (hfr : c.frames = { self := self', exp := v', state := .cf } :: rest) :
    ∃ R' c', Steps N c c' ∧ Done outer R R' s c rest s₁ v₁ c' := by
  have hw : Whole c.store := Steps.whole hc h₀
  unfold callFn at hr
  split at hr
  · cases hr
  · -- a list: its first element is called with the others
    rename_i xs hd
    obtain ⟨xs, rfl, h1⟩ := Option.bind_eq_some_iff.mp hr
    obtain ⟨xs', h2, h3⟩ := h.elems hv (elems_of_deref hd)
    split at h1
    · cases h1
    rename_i f as
    obtain ⟨f', as', hff, has, rfl⟩ := List.forall₂_cons_left_iff.mp h3
    split at h1
    swap
    · cases h1
    rename_i ns argNames exp hf
    have hff' := hff.of_ne (ne_zero_of_deref (s := s) (by simp [hf]))
    obtain ⟨ns', args', exp', hf', hns, hk, hk', ha, he⟩ := h.fn hff' hf
    obtain ⟨names, hnames, h1⟩ := Option.bind_eq_some_iff.mp h1
    obtain ⟨names', hnames', hn⟩ := h.elems ha hnames
    have hlen' : (as'.length = names'.length) ↔ as.length = names.length := by
      rw [has.length_eq, hn.length_eq]
    split_ifs at h1 with hlen
    · obtain ⟨⟨s₂, tmp⟩, hcall, h1⟩ := Option.bind_eq_some_iff.mp h1
      simp only at h1
      split_ifs at h1 with hbody
      obtain ⟨⟨s₃, res⟩, heval, h1⟩ := Option.bind_eq_some_iff.mp h1
      obtain ⟨o, -, h1⟩ := Option.bind_eq_some_iff.mp h1
      simp only at h1
      split_ifs at h1 with hret
      obtain ⟨⟨s₂', tmp'⟩, R₁, hcall', hx₁, hrel₁, htmp, o', rfl, ho'⟩ :=
        callFrame_sim (U := fun _ => True) h ⟨hns, hk, hk'⟩ ha he hn has hcall
      -- the body is evaluated
      let fr₁ : Frame := { self := self', exp := v', tmp := tmp', state := .cfRet }
      let c₁ : Config ω := { c with
        store := (alloc c.store o').1
        frames := { self := tmp', exp := exp', state := .ef } :: fr₁ :: rest }
      obtain ⟨x, xs, hbody⟩ : ∃ x xs, elems s₂ exp = some (x :: xs) := by
        simp only [meets] at hbody
        split at hbody
        · exact ⟨_, _, by assumption⟩
        · cases hbody
      have hstep₁ : step N c 0 = some c₁ := by
        rw [step, hfr]
        simp only [stepCf, elems_eq h2, Option.bind_some, hf', hnames', if_pos (hlen'.mpr hlen),
          hcall', Option.map_some]
        rfl
      have hst₁ : Steps N c c₁ := steps_round hstep₁ (whole_alloc hw (ho' _))
      have hexp₁ : R₁ exp exp' := hx₁.mono _ _ trivial he
      obtain ⟨R₂, c₂, ys, ys', hst₂, hfr₂, hx₂, hrel₂, hb₂, hres, hres'⟩ :=
        hev R₁ s₂ c₁ exp exp' tmp tmp' x xs s₃ res (fr₁ :: rest)
          heval (hc.trans hst₁) hrel₁ hexp₁ htmp hbody rfl
      have hst₃ : Steps N c c₂ := hst₁.trans hst₂
      have hc₂ : Steps N c₀ c₂ := hc.trans hst₃
      -- the function of the call is in use, as that of the frame over the body
      have htmp₂ : R₂ tmp tmp' :=
        hx₂.mono _ _ (uses_cons.mpr (.inl (.inr (.inr (.inl rfl))))) htmp
      have hx₃ : Ext (Uses outer c.store rest) R R₂ s s₃ c.store c₂.store :=
        (hx₁.weaken fun _ _ => trivial).trans
          (hx₂.weaken fun b hb => uses_cons.mpr (.inr (hb.mono hx₁.arrs')))
      obtain ⟨R₃, s₁', v₁', hstep₂, hw₃, hrel₃, hval, hsub, hmono, hkeep⟩ :=
        return_sim (hgc c₂ hc₂) hfr₂ rfl (Steps.whole hc₂ h₀) hrel₂ htmp₂ hret hb₂ h1
      obtain ⟨hk₁, hk₁'⟩ := hkeep s c.store hx₃.arrs hx₃.arrs'
        (hx₁.arrs.length_le.trans_lt hres) (hx₁.arrs'.length_le.trans_lt hres')
      refine ⟨R₃, c₂.exit rest s₁' v₁', hst₃.tail ⟨⟨0, hstep₂⟩, hw₃⟩, rfl, ?_, hrel₃, hval⟩
      exact ⟨fun a b hb hab => hmono a b (hb.mono hx₃.arrs') (hx₃.mono a b hb hab),
        fun a b hab => hx₃.left a b (hsub a b hab), fun a b hab => hx₃.right a b (hsub a b hab),
        hk₁, hk₁'⟩
    · cases h1
      refine ⟨R, c.exit rest c.store 0, steps_round (n := 0) ?_ hw, rfl, .refl .., h,
        .inl ⟨rfl, rfl⟩⟩
      rw [step, hfr]
      simp only [stepCf, elems_eq h2, Option.bind_some, hf', hnames', if_neg (mt hlen'.mp hlen)]
  · -- a name
    rename_i o hno hd
    obtain ⟨v₂, hget, hr⟩ := Option.map_eq_some_iff.mp hr
    cases hr
    obtain ⟨v₂', hget', hvv⟩ := getVal_sim h hv hself hget
    refine ⟨R, c.exit rest c.store v₂', steps_round (n := n) ?_ hw, rfl, .refl .., h, hvv⟩
    obtain ⟨o₁, o', hd₁, hd', ho⟩ := h.obj v v' hv
    cases hd.symm.trans hd₁
    rw [step, hfr]
    cases ho with
    | arr => exact absurd rfl (hno _)
    | str | num | fn => simp only [stepCf, hd', hget', Option.map_some]

lemma opOk_of_evalOk (hgc : ∀ c, Steps N c₀ c → SparesLive N outer c) (h₀ : Whole c₀.store)
    (hev : EvalOk N c₀ outer (evalFn meets n)) : OpOk N c₀ outer (evalFn meets n) n := by
  intro o R s c v v' self self' s₁ v₁ rest hr hc h hv hself hfr hret
  have hw : Whole c.store := Steps.whole hc h₀
  cases o with
  | df => exact defFn_sim hr hw h hv hself hfr
  | cf => exact callFn_sim hgc h₀ hev hr hc h hv hself hfr
  | ef => exact reduce_sim hev h₀ hr hc h hv hself hfr (hret rfl)
  | nf => exact nameFn_sim hr hw h hv hself hfr
  | cfRet | ef0 | ef1 | ccf => cases hr

/-- **Every list**, at every depth. -/
lemma evalOk (hgc : ∀ c, Steps N c₀ c → SparesLive N outer c) (h₀ : Whole c₀.store) :
    EvalOk N c₀ outer (evalFn meets n) := by
  induction n with
  | zero =>
    intro R s c exp exp' self self' x xs s₁ v₁ rest hr
    cases hr
  | succ n ih => exact evalFn_sim h₀ (opOk_of_evalOk hgc h₀ ih)

/-! ### Checks only refuse -/

/-- What one evaluation returns the other returns too. -/
def Sub (eval eval' : Store → ℕ → ℕ → Option (Store × ℕ)) : Prop :=
  ∀ s v self r, eval s v self = some r → eval' s v self = some r

lemma callFn_sub {eval eval' : Store → ℕ → ℕ → Option (Store × ℕ)} (h : Sub eval eval') :
    Sub (callFn chk eval n) (callFn .none eval' n) := by
  intro s v self r hr
  unfold callFn at hr
  split at hr
  · cases hr
  · rename_i xs hd
    obtain ⟨xs, rfl, h1⟩ := Option.bind_eq_some_iff.mp hr
    split at h1
    · cases h1
    split at h1
    · rename_i ns argNames exp hf
      obtain ⟨names, hnames, h1⟩ := Option.bind_eq_some_iff.mp h1
      split_ifs at h1 with hlen
      · obtain ⟨⟨s₂, tmp⟩, hcall, h1⟩ := Option.bind_eq_some_iff.mp h1
        simp only at h1
        split_ifs at h1
        obtain ⟨⟨s₃, res⟩, heval, h1⟩ := Option.bind_eq_some_iff.mp h1
        obtain ⟨o, ho, h1⟩ := Option.bind_eq_some_iff.mp h1
        simp only at h1
        split_ifs at h1
        simp only [callFn, hd, Option.bind_some, hf, hnames, if_pos hlen, hcall, Check.none,
          if_true, h _ _ _ _ heval, ho, h1]
      · simp only [callFn, hd, Option.bind_some, hf, hnames, if_neg hlen, h1]
    · cases h1
  · rename_i o hno hd
    cases o with
    | arr xs => exact absurd rfl (hno xs)
    | str | num | bcode | fn => simp only [callFn, hd, hr]

lemma opsLoop_sub {eval eval' : Store → ℕ → ℕ → Option (Store × ℕ)} (h : Sub eval eval') {self : ℕ}
    {stk : List ℕ} {v : ℕ} {r : Store × ℕ} (hr : opsLoop chk eval n self stk s v = some r) :
    opsLoop .none eval' n self stk s v = some r := by
  induction stk generalizing s v with
  | nil => exact hr
  | cons op stk ih =>
    obtain ⟨o, ho, hr⟩ := Option.bind_eq_some_iff.mp hr
    obtain ⟨ov, hov, hr⟩ := Option.bind_eq_some_iff.mp hr
    obtain ⟨⟨s₂, v₂⟩, h1, hr⟩ := Option.bind_eq_some_iff.mp hr
    have h2 : operation .none eval' n o s v self = some (s₂, v₂) := by
      cases o with
      | cf => exact callFn_sub h _ _ _ _ h1
      | ef => exact h _ _ _ _ h1
      | _ => exact h1
    rw [opsLoop, ho, Option.bind_some, hov, Option.bind_some, h2, Option.bind_some]
    exact ih hr

lemma evalLoop_sub {eval eval' : Store → ℕ → ℕ → Option (Store × ℕ)} (h : Sub eval eval')
    {exp self tmp k i : ℕ} (hr : evalLoop chk eval n exp self tmp k s i = some s₁) :
    evalLoop .none eval' n exp self tmp k s i = some s₁ := by
  induction k generalizing s i with
  | zero => cases hr
  | succ k ih =>
    obtain ⟨xs, hxs, hr⟩ := Option.bind_eq_some_iff.mp hr
    rw [evalLoop, hxs, Option.bind_some]
    split_ifs at hr ⊢
    · obtain ⟨⟨v, j, stk⟩, h1, hr⟩ := Option.bind_eq_some_iff.mp hr
      obtain ⟨⟨s₂, v₂⟩, h2, hr⟩ := Option.bind_eq_some_iff.mp hr
      simp only at hr
      split_ifs at hr
      obtain ⟨s₃, h3, hr⟩ := Option.bind_eq_some_iff.mp hr
      simp only [h1, Option.bind_some, opsLoop_sub h h2, h3]
      exact ih hr
    · exact hr

lemma evalFn_sub : Sub (evalFn chk n) (evalFn .none n) := by
  induction n with
  | zero => exact fun _ _ _ _ hr => hr
  | succ n ih =>
    intro s v self r hr
    unfold evalFn at hr
    split at hr
    · cases hr
    · rename_i xs hd
      obtain ⟨s₂, hloop, hr⟩ := Option.map_eq_some_iff.mp hr
      rw [evalFn, hd]
      exact Option.map_eq_some_iff.mpr ⟨s₂, evalLoop_sub ih hloop, hr⟩
    · rename_i o hno hd
      cases o with
      | arr xs => exact absurd rfl (hno xs)
      | str | num | bcode | fn => simp only [evalFn, hd, hr]

/-! ### The agreement -/

/-- A store without dangling pointers and lost lists, without the operator `<` and without bytecode.
-/
structure Closed (s : Store) : Prop where
  whole : Whole s
  arr : ∀ a xs, deref s a = some (.arr (some xs)) → ∀ x ∈ xs, x = 0 ∨ deref s x ≠ none
  fn : ∀ a ns args exp, deref s a = some (.fn ns args exp) → deref s args ≠ none ∧
    deref s exp ≠ none ∧ (∀ k v, ns k = some v → deref s v ≠ none) ∧ KeysIn (IsFn s) ns
  str : ∀ a, deref s a ≠ some (.str [60])
  num : ∀ a, deref s a ≠ some (.num [60])
  bcode : ∀ a ws, deref s a ≠ some (.bcode ws)

/-- Every object corresponds to itself. -/
lemma Closed.rel (h : Closed s) : Rel (fun a b => a = b ∧ deref s a ≠ none) s s := by
  refine ⟨?_, ?_, ?_⟩
  · rintro a _ ⟨rfl, ha⟩
    obtain ⟨o, ho⟩ := Option.ne_none_iff_exists'.mp ha
    refine ⟨o, o, ho, ho, ?_⟩
    cases o with
    | str ws => exact .str fun h0 => h.str a (h0 ▸ ho)
    | num ws => exact .num fun h0 => h.num a (h0 ▸ ho)
    | bcode ws => exact absurd ho (h.bcode a ws)
    | arr xs =>
      cases xs with
      | none => exact .arr .none
      | some xs =>
        refine .arr (.some (List.forall₂_same.mpr fun x hx => ?_))
        exact (h.arr a xs ho x hx).imp (fun h0 => ⟨h0, h0⟩) fun h0 => ⟨rfl, h0⟩
    | fn ns args exp =>
      obtain ⟨h1, h2, h3, h4⟩ := h.fn a ns args exp ho
      refine .fn (fun k k' hk => ?_) h4 h4 ⟨rfl, h1⟩ ⟨rfl, h2⟩
      have hkk : k' = k := by
        cases hk with
        | words => rfl
        | fn hf => rw [hf.1]
      rw [hkk]
      cases hv : ns k with
      | none => exact .none
      | some v => exact .some ⟨rfl, h3 k v hv⟩
  · rintro a b b' ⟨rfl, -⟩ ⟨rfl, -⟩ -
    rfl
  · rintro a a' b ⟨rfl, -⟩ ⟨rfl, -⟩ -
    rfl

/-- The state in which `_run_prog` starts. -/
def start (w : ω) (s : Store) (mainExpr self : ℕ) : Config ω :=
  { world := w, store := s, frames := [{ self, exp := mainExpr, state := .cf }], ret := 0 }

/-- A function with the body `body` of which it is its own parent, and the list that calls it. -/
def example1 (body : List ℕ) : Store :=
  [.arr (some []), .num [1, 0], .arr (some body),
    .fn (Function.update (fun _ => none) sup (some 4)) 1 3, .arr (some [4])]

lemma closed_example {body : List ℕ} (hb : ∀ x ∈ body, x = 2) : Closed (example1 body) := by
  have hcases : ∀ a o, deref (example1 body) a = some o → a = 1 ∧ o = .arr (some []) ∨
      a = 2 ∧ o = .num [1, 0] ∨ a = 3 ∧ o = .arr (some body) ∨
      a = 4 ∧ o = .fn (Function.update (fun _ => none) sup (some 4)) 1 3 ∨
      a = 5 ∧ o = .arr (some [4]) := by
    intro a o h
    rcases a with _ | _ | _ | _ | _ | _ | a
    all_goals simp [deref, example1] at h
    all_goals simp [h]
  refine ⟨fun a h => ?_, fun a xs h x hx => ?_, fun a ns args exp h => ?_, fun a h => ?_,
    fun a h => ?_, fun a ws h => ?_⟩
  · rcases hcases a _ h with ⟨-, h⟩ | ⟨-, h⟩ | ⟨-, h⟩ | ⟨-, h⟩ | ⟨-, h⟩ <;> cases h
  · rcases hcases a _ h with ⟨-, h⟩ | ⟨-, h⟩ | ⟨-, h⟩ | ⟨-, h⟩ | ⟨-, h⟩ <;> cases h
    · cases hx
    · exact .inr (by simp [hb x hx, deref, example1])
    · exact .inr (by simp [List.mem_singleton.mp hx, deref, example1])
  · rcases hcases a _ h with ⟨-, h⟩ | ⟨-, h⟩ | ⟨-, h⟩ | ⟨-, h⟩ | ⟨-, h⟩ <;> cases h
    refine ⟨by simp [deref, example1], by simp [deref, example1], fun k v hk => ?_, fun f hf => ?_⟩
    · rw [Function.update_apply] at hk
      split_ifs at hk
      cases hk
      simp [deref, example1]
    · exact absurd rfl hf
  all_goals rcases hcases a _ h with ⟨-, h⟩ | ⟨-, h⟩ | ⟨-, h⟩ | ⟨-, h⟩ | ⟨-, h⟩ <;> cases h

/-- A collector that gives back the function of every call. -/
def givesBack : Native Unit := { noNative with gcDelObj := fun _ _ _ => true }

/-- The store when the call of `example1 [2]` returns. -/
def example2 : Store :=
  example1 [2] ++ [.fn (Function.update (fun _ => none) sup (some 4)) 1 3, .arr (some [2])]

lemma not_holds_example {a b : ℕ} (ha : a ≠ 6) (h : Holds example2 a b) : b ≠ 6 := by
  have hcases : ∀ a o, deref example2 a = some o → a = 6 ∨ o = .num [1, 0] ∨
      (∃ xs, o = .arr (some xs) ∧ ∀ x ∈ xs, x ≠ 6) ∨
      o = .fn (Function.update (fun _ => none) sup (some 4)) 1 3 := by
    intro a o h
    rcases a with _ | _ | _ | _ | _ | _ | _ | _ | a
    all_goals simp [deref, example2, example1] at h
    all_goals simp [← h]
  cases h with
  | @elem xs b hx hb =>
    rcases hcases a _ (elems_eq hx) with h1 | h1 | ⟨ys, h1, h2⟩ | h1
    · exact absurd h1 ha
    · cases h1
    · cases h1
      exact h2 b hb
    · cases h1
  | args h =>
    rcases hcases a _ h with h1 | h1 | ⟨ys, h1, h2⟩ | h1 <;> cases h1
    · exact absurd rfl ha
    · decide
  | exp h =>
    rcases hcases a _ h with h1 | h1 | ⟨ys, h1, h2⟩ | h1 <;> cases h1
    · exact absurd rfl ha
    · decide
  | @val ns args exp v k h hv =>
    rcases hcases a _ h with h1 | h1 | ⟨ys, h1, h2⟩ | h1 <;> cases h1
    · exact absurd rfl ha
    · rw [Function.update_apply] at hv
      split_ifs at hv
      cases hv
      decide

end LispMachine.EvalRun
