import LispMachine.EvalFn
import LispMachine.InterpStep

/-!
The operators before the elements of a list.

An element is evaluated together with the operators in front of it, which a loop collects one by
one. The loop ends at the first object that is no operator; it does not look at the size of the
list, which only the loop around it does.
-/

namespace LispMachine.Elements

open LispMachine.Lib.Run LispMachine.Reader LispMachine.Interp LispMachine.InterpStep
open LispMachine.EvalFn (Check evalLoop)

variable {ω : Type} {N : Native ω} {ops : Key → Option Label} {s : Store} {xs ys stk stk' : List ℕ}
variable {i j k x : ℕ}

/-! ### The loop over the operators -/

/-- Whether an object is one of the operators. -/
def isOp (ops : Key → Option Label) (s : Store) (x : ℕ) : Bool := ((keyOf s x).bind ops).isSome

/-- The indices at which the loop looks, when `xs` are the elements from `i` on. -/
def indices (ops : Key → Option Label) (s : Store) : List ℕ → ℕ → List ℕ
  | [], i => [i]
  | x :: xs, i => i :: if isOp ops s x then indices ops s xs (i + 1) else []

/-- For the element at `i` the loop looks at elements of the list only. -/
def InBounds (ops : Key → Option Label) (s : Store) (xs : List ℕ) (i : ℕ) : Prop :=
  ∀ j ∈ indices ops s (xs.drop i) i, j < xs.length

lemma indices_lt_iff : (∀ j ∈ indices ops s ys i, j < i + ys.length) ↔
    ∃ x ∈ ys, isOp ops s x = false := by
  induction ys generalizing i with
  | nil => simp [indices]
  | cons x ys ih =>
    rw [indices, List.forall_mem_cons, List.exists_mem_cons_iff, List.length_cons,
      and_iff_right (by omega : i < i + (ys.length + 1))]
    by_cases hx : isOp ops s x
    · simp only [hx, if_true, ← ih (i := i + 1), Bool.true_eq_false, false_or]
      rw [show i + 1 + ys.length = i + (ys.length + 1) by omega]
    · simp [hx]

/-- **The bounds** are kept if and only if there is something else than operators. -/
lemma bounds_kept_iff (hi : i < xs.length) :
    InBounds ops s xs i ↔ ∃ x ∈ xs.drop i, isOp ops s x = false := by
  rw [← indices_lt_iff (i := i), List.length_drop, Nat.add_sub_cancel' hi.le, InBounds]

/-- A list that does not end in an operator. -/
lemma inBounds_of_last (hi : i < xs.length) (hlast : ∀ x ∈ xs.getLast?, isOp ops s x = false) :
    InBounds ops s xs i := by
  have hne : xs.drop i ≠ [] := by simpa using hi
  refine (bounds_kept_iff hi).mpr ⟨(xs.drop i).getLast hne, List.getLast_mem hne, hlast _ ?_⟩
  rw [List.getLast_drop hne, List.getLast?_eq_some_getLast (List.ne_nil_of_length_pos (by omega))]
  rfl

/-- What the loop finds: the operators before the element, and the element. -/
lemma opLoop_spec (h : opLoop ops s ys i stk = some (x, j, stk')) : ∃ k, j = i + k ∧
    ys[k]? = some x ∧ isOp ops s x = false ∧ (∀ y ∈ ys.take k, isOp ops s y) ∧
    stk' = (ys.take k).reverse ++ stk := by
  induction ys generalizing i stk with
  | nil => cases h
  | cons y ys ih =>
    obtain ⟨key, hkey, h⟩ := Option.bind_eq_some_iff.mp h
    have hop : isOp ops s y = (ops key).isSome := by rw [isOp, hkey, Option.bind_some]
    split_ifs at h with hsome
    · obtain ⟨k, h1, h2, h3, h4, h5⟩ := ih h
      refine ⟨k + 1, by omega, h2, h3, ?_, by rw [h5]; simp⟩
      rw [List.take_succ_cons, List.forall_mem_cons]
      exact ⟨by rw [hop, hsome], h4⟩
    · cases h
      exact ⟨0, rfl, rfl, by simpa [hop] using hsome, by simp, by simp⟩

/-- Nothing but operators is read past its end. -/
lemma opLoop_past (h : ∀ x ∈ ys, isOp ops s x) : opLoop ops s ys i stk = none := by
  by_contra hne
  obtain ⟨⟨x, j, stk'⟩, h1⟩ := Option.ne_none_iff_exists'.mp hne
  obtain ⟨k, -, h2, h3, -⟩ := opLoop_spec h1
  exact absurd (h x (List.mem_of_getElem? h2)) (by simp [h3])

lemma opLoop_none (hi : i < xs.length) (h : ¬ InBounds ops s xs i) :
    opLoop ops s (xs.drop i) i stk = none := by
  refine opLoop_past fun x hx => ?_
  rw [bounds_kept_iff hi] at h
  push Not at h
  simpa using h x hx

/-! ### The frames -/

variable {c c' : Config ω} {fr fr' : Frame} {rest : List Frame} {n : ℕ}

/-- The frame evaluates a list. -/
def Evaluates (fr : Frame) : Prop := fr.state = .ef ∨ fr.state = .ef0 ∨ fr.state = .ef1

/-- The list of the values of a frame that evaluates one. -/
def results (c : Config ω) (fr : Frame) : ℕ :=
  if fr.state = .ef then c.store.length + 1 else fr.tmp

/-- A round deletes a frame, or makes one above another, or comes to the next element. -/
inductive Turn (c : Config ω) (fr : Frame) (rest : List Frame) (c' : Config ω) : Prop
  | pop (hf : c'.frames = rest)
    (hret : Evaluates fr → fr.state = .ef ∧ c'.ret = c.ret ∨ c'.ret = results c fr)
  | call (f g : Frame) (hst : fr.state = .cf) (hf : c'.frames = f :: g :: rest)
    (hf' : f.state = .ef) (hg : g.state = .cfRet) (hret : c'.ret = c.ret)
    (hfn : ∃ x xs, elems c.store fr.exp = some (x :: xs) ∧ nsOf c.store x ≠ none)
  | operate (f g : Frame) (hst : Evaluates fr) (hf : c'.frames = f :: g :: rest)
    (hop : ∃ k, opState k = some f.state) (hexp : f.exp = c'.ret) (hg : g.state = .ef1)
    (htmp : g.tmp = results c fr)
  | next (f : Frame) (hst : Evaluates fr) (hf : c'.frames = f :: rest)
    (hf' : f.state = .ef0) (hstk : f.opStk = []) (htmp : f.tmp = results c fr)
    (hi : ∀ xs, elems c'.store f.exp = some xs → f.i < xs.length)

/-- Of the objects only functions are changed, the values of the list that the frame evaluates, and
at a return the list that is returned. -/
structure Kept (c : Config ω) (fr : Frame) (s' : Store) : Prop where
  length_le : c.store.length ≤ s'.length
  deref : ∀ r ≤ c.store.length, nsOf c.store r = none → (Evaluates fr → r ≠ results c fr) →
    (fr.state = .cfRet → r ≠ c.ret) → deref s' r = deref c.store r

lemma Kept.refl (c : Config ω) (fr : Frame) : Kept c fr c.store := ⟨le_rfl, fun _ _ _ _ _ => rfl⟩

lemma Kept.alloc {s : Store} (hk : Kept c fr s) (o : Obj) : Kept c fr (alloc s o).1 := by
  have hlen := hk.length_le
  refine ⟨by simp [Interp.alloc]; omega, fun r hr h1 h2 h3 => ?_⟩
  rw [deref_alloc, if_neg (by omega), hk.deref r hr h1 h2 h3]

lemma Kept.put {s : Store} (hk : Kept c fr s) {a : ℕ} {o o' : Obj} (ho : Interp.deref s a = some o)
    (ha : c.store.length < a ∨ nsOf c.store a ≠ none ∨ (Evaluates fr ∧ a = results c fr) ∨
      (fr.state = .cfRet ∧ a = c.ret)) : Kept c fr (put s a o') := by
  refine ⟨by simpa [Interp.put] using hk.length_le, fun r hr h1 h2 h3 => ?_⟩
  have hne : r ≠ a := by
    rintro rfl
    rcases ha with h4 | h4 | ⟨h4, h5⟩ | ⟨h4, h5⟩
    · omega
    · exact h4 h1
    · exact h2 h4 h5
    · exact h3 h4 h5
  rw [deref_put ho, if_neg hne, hk.deref r hr h1 h2 h3]

lemma opState_ne_ef0 (k : Key) : opState k ≠ some .ef0 := by
  unfold opState
  split <;> simp

/-- The end of every round that evaluates a list. -/
lemma stepEf1_turn {c₁ : Config ω} {fr₁ : Frame} (h : stepEf1 c₁ fr₁ rest = some c')
    (hk : Kept c fr c₁.store) (hst : fr₁.state = .ef1) (hev : Evaluates fr)
    (htmp : fr₁.tmp = results c fr) : Kept c fr c'.store ∧ Turn c fr rest c' := by
  unfold stepEf1 at h
  split at h
  · obtain ⟨-, -, h⟩ := Option.bind_eq_some_iff.mp h
    obtain ⟨state, hop, rfl⟩ := Option.map_eq_some_iff.mp h
    obtain ⟨k, -, hop⟩ := Option.bind_eq_some_iff.mp hop
    exact ⟨hk, .operate _ _ hev rfl ⟨k, hop⟩ rfl hst htmp⟩
  · rename_i hstk
    obtain ⟨s, happ, h⟩ := Option.bind_eq_some_iff.mp h
    obtain ⟨size, hsize, h⟩ := Option.map_eq_some_iff.mp h
    obtain ⟨xs, hxs, hs⟩ := objArrayAppend_iff.mp happ
    have hk' : Kept c fr s := hs ▸ hk.put hxs (.inr (.inr (.inl ⟨hev, htmp⟩)))
    split_ifs at h with hi
    · cases h
      exact ⟨hk', .pop rfl fun _ => .inr htmp⟩
    · cases h
      refine ⟨hk', .next _ hev rfl rfl hstk htmp fun ys hys => ?_⟩
      obtain ⟨zs, hzs, rfl⟩ := Option.map_eq_some_iff.mp hsize
      cases hys.symm.trans hzs
      exact not_le.mp hi

lemma stepEf0_turn {c₁ : Config ω} {fr₁ : Frame} (h : stepEf0 c₁ fr₁ rest = some c')
    (hk : Kept c fr c₁.store) (hev : Evaluates fr) (htmp : fr₁.tmp = results c fr) :
    Kept c fr c'.store ∧ Turn c fr rest c' := by
  obtain ⟨xs, -, h⟩ := Option.bind_eq_some_iff.mp h
  obtain ⟨⟨ret, i, opStk⟩, -, h⟩ := Option.bind_eq_some_iff.mp h
  have h1 : stepEf1 { c₁ with ret } { fr₁ with i, opStk, state := .ef1, old := 0 } rest =
    some c' := h
  exact stepEf1_turn h1 hk rfl hev htmp

lemma stepEf_turn (h : stepEf c fr rest = some c') (hst : fr.state = .ef) :
    Kept c fr c'.store ∧ Turn c fr rest c' := by
  have hpop : Kept c fr c.store ∧ Turn c fr rest (c.exit rest c.store c.ret) :=
    ⟨.refl c fr, .pop rfl fun _ => .inl ⟨hst, rfl⟩⟩
  unfold stepEf at h
  split at h
  · cases h
  · obtain ⟨ys, -, h1⟩ := Option.bind_eq_some_iff.mp h
    split_ifs at h1
    · cases h1
      exact hpop
    · refine stepEf0_turn h1 ((Kept.refl c fr).alloc _) (.inl hst) ?_
      rw [results, if_pos hst]
  · cases h
    exact hpop

lemma callFrame_kept {ns : Ns} {args exp f : ℕ} {names : List ℕ} {s' : Store}
    (h : callFrame c.store ns args exp names xs = some (s', f)) : Kept c fr s' := by
  obtain ⟨⟨s₁, f₁⟩, h1, h⟩ := Option.bind_eq_some_iff.mp h
  obtain ⟨ns₁, rfl, rfl, -⟩ := newFn_spec h1
  have hf : deref (alloc c.store (.fn ns₁ args exp)).1 (c.store.length + 1) =
    some (.fn ns₁ args exp) := by rw [deref_alloc, if_pos rfl]
  have hf' : deref (c.store ++ [.fn ns₁ args exp]) (c.store.length + 1) =
    some (.fn ns₁ args exp) := hf
  simp only [hf'] at h
  obtain ⟨tmpNs, -, h2⟩ := Option.map_eq_some_iff.mp h
  cases h2
  exact ((Kept.refl c fr).alloc _).put hf (.inl (Nat.lt_succ_self _))

lemma stepCf_turn (h : stepCf N c fr rest n = some c') (hst : fr.state = .cf) :
    (Runs c.store fr ∨ Kept c fr c'.store) ∧ Turn c fr rest c' := by
  have hev : ¬ Evaluates fr := by simp [Evaluates, hst]
  unfold stepCf at h
  split at h
  · cases h
  · rename_i xs hd
    obtain ⟨ys, rfl, h1⟩ := Option.bind_eq_some_iff.mp h
    have hel : elems c.store fr.exp = some ys := by rw [elems, hd]
    split at h1
    · cases h1
    · rename_i g xs
      split at h1
      · rename_i ws hg
        obtain ⟨r, -, rfl⟩ := Option.map_eq_some_iff.mp h1
        exact ⟨.inl (.inr ⟨hst, g, xs, ws, hel, hg⟩), .pop rfl fun h2 => absurd h2 hev⟩
      · rename_i ns args exp hg
        obtain ⟨names, -, h⟩ := Option.bind_eq_some_iff.mp h1
        split_ifs at h
        · obtain ⟨⟨s, tmp⟩, hcall, rfl⟩ := Option.map_eq_some_iff.mp h
          exact ⟨.inr (callFrame_kept hcall), .call _ _ hst rfl rfl rfl rfl
            ⟨g, xs, hel, by simp [nsOf_fn hg]⟩⟩
        · cases h
          exact ⟨.inr (.refl c fr), .pop rfl fun h2 => absurd h2 hev⟩
      · cases h1
  · obtain ⟨ret, -, rfl⟩ := Option.map_eq_some_iff.mp h
    exact ⟨.inr (.refl c fr), .pop rfl fun h2 => absurd h2 hev⟩

lemma delFn_kept {w : ω} {f : ℕ} {s' : Store} (h : delFn N w c.store f = some s') :
    Kept c fr s' := by
  unfold delFn at h
  split at h
  · rename_i ns args exp hd
    have hfn : nsOf c.store f ≠ none := by simp [nsOf_fn hd]
    split at h
    · cases h
    · have hk : Kept c fr (put c.store f (.fn (setRemoveStrKey ns sup) 0 0)) :=
        (Kept.refl c fr).put hd (.inr (.inl hfn))
      have hd' : deref (put c.store f (.fn (setRemoveStrKey ns sup) 0 0)) f =
          some (.fn (setRemoveStrKey ns sup) 0 0) := by
        rw [deref_put hd, if_pos rfl]
      simp only at h
      split at h
      · cases h
        exact hk
      · obtain ⟨ns', -, rfl⟩ := Option.map_eq_some_iff.mp h
        exact hk.put hd' (.inr (.inl hfn))
  · cases h

lemma stepCfRet_turn (h : stepCfRet N c fr rest = some c') (hst : fr.state = .cfRet) :
    Kept c fr c'.store ∧ Turn c fr rest c' := by
  have hev : ¬ Evaluates fr := by simp [Evaluates, hst]
  obtain ⟨-, -, h⟩ := Option.bind_eq_some_iff.mp h
  obtain ⟨s, hdel, h⟩ := Option.bind_eq_some_iff.mp h
  obtain ⟨len, -, h⟩ := Option.bind_eq_some_iff.mp h
  have hk : Kept c fr s := delFn_kept hdel
  split_ifs at h
  · obtain ⟨ret, -, h⟩ := Option.bind_eq_some_iff.mp h
    obtain ⟨-, -, h⟩ := Option.bind_eq_some_iff.mp h
    obtain ⟨s', hset, rfl⟩ := Option.map_eq_some_iff.mp h
    obtain ⟨xs, hxs, rfl⟩ := Option.map_eq_some_iff.mp hset
    exact ⟨hk.put (elems_eq hxs) (.inr (.inr (.inr ⟨hst, rfl⟩))),
      .pop rfl fun h2 => absurd h2 hev⟩
  · cases h
    exact ⟨hk, .pop rfl fun h2 => absurd h2 hev⟩

lemma stepDf_turn (h : stepDf c fr rest = some c') (hst : fr.state = .df) :
    Kept c fr c'.store ∧ Turn c fr rest c' := by
  obtain ⟨args, -, h⟩ := Option.bind_eq_some_iff.mp h
  obtain ⟨exp, -, h⟩ := Option.bind_eq_some_iff.mp h
  obtain ⟨⟨s, f⟩, hnew, rfl⟩ := Option.map_eq_some_iff.mp h
  obtain ⟨ns, rfl, rfl, -⟩ := newFn_spec hnew
  exact ⟨(Kept.refl c fr).alloc _, .pop rfl fun h2 => by simp [Evaluates, hst] at h2⟩

lemma stepNf_turn (h : stepNf c fr rest = some c') (hst : fr.state = .nf) :
    Kept c fr c'.store ∧ Turn c fr rest c' := by
  unfold stepNf at h
  split at h
  · rename_i ns args exp hself
    obtain ⟨key, -, h⟩ := Option.bind_eq_some_iff.mp h
    obtain ⟨k, -, h⟩ := Option.bind_eq_some_iff.mp h
    obtain ⟨v, -, h⟩ := Option.bind_eq_some_iff.mp h
    obtain ⟨ns', -, rfl⟩ := Option.map_eq_some_iff.mp h
    exact ⟨(Kept.refl c fr).put hself (.inr (.inl (by simp [nsOf_fn hself]))),
      .pop rfl fun h2 => by simp [Evaluates, hst] at h2⟩
  · cases h

/-- **A round**, by what it does to the frames. -/
lemma step_turn (h : step N c n = some c') : ∃ fr rest, c.frames = fr :: rest ∧
    (Runs c.store fr ∨ Kept c fr c'.store) ∧ Turn c fr rest c' := by
  unfold step at h
  split at h
  · cases h
  rename_i fr rest hfr
  refine ⟨fr, rest, hfr, ?_⟩
  cases hst : fr.state <;> rw [hst] at h <;> simp only at h
  case cf => exact stepCf_turn h hst
  case cfRet => exact (stepCfRet_turn h hst).imp_left .inr
  case df => exact (stepDf_turn h hst).imp_left .inr
  case ef => exact (stepEf_turn h hst).imp_left .inr
  case ef0 =>
    exact (stepEf0_turn h (.refl c fr) (.inr (.inl hst)) (by rw [results, hst]; rfl)).imp_left .inr
  case ef1 =>
    exact (stepEf1_turn h (.refl c fr) hst (.inr (.inr hst)) (by rw [results, hst]; rfl)).imp_left
      .inr
  case ccf =>
    obtain ⟨r, -, rfl⟩ := Option.map_eq_some_iff.mp h
    exact ⟨.inl (.inl hst), .pop rfl fun h2 => by simp [Evaluates, hst] at h2⟩
  case nf => exact (stepNf_turn h hst).imp_left .inr

/-! ### The runs -/

/-- The runs of `_run_prog` from `run_prog_stack`. -/
def runSystem (N : Native ω) : System (Config ω) where
  init c := ∃ w code ts stack heap, tokenize code = some ts ∧
    runProgStack w ts stack heap = some c
  step c c' := ∃ n, step N c n = some c'

/-- Frames come to their next elements at the top only, and only if there are any. -/
structure Inv (c : Config ω) : Prop where
  top : ∀ fr rest, c.frames = fr :: rest → fr.state = .ef0 →
    fr.opStk = [] ∧ ∀ xs, elems c.store fr.exp = some xs → fr.i < xs.length
  below : ∀ fr ∈ c.frames.tail, fr.state ≠ .ef0

lemma inv_step (h : Inv c) (hs : step N c n = some c') : Inv c' := by
  obtain ⟨fr, rest, hfr, -, hturn⟩ := step_turn hs
  have hrest : ∀ f ∈ rest, f.state ≠ .ef0 := by
    have := h.below
    rwa [hfr] at this
  have hpush : ∀ f g : Frame, c'.frames = f :: g :: rest → f.state ≠ .ef0 → g.state ≠ .ef0 →
      Inv c' := fun f g hf h₁ h₂ => by
    refine ⟨fun fr' rest' hfr' hst => ?_, fun f' hmem => ?_⟩
    · cases hf.symm.trans hfr'
      exact absurd hst h₁
    · rw [hf, List.tail_cons] at hmem
      rcases List.mem_cons.mp hmem with rfl | hmem
      · exact h₂
      · exact hrest _ hmem
  cases hturn with
  | pop hf =>
    refine ⟨fun fr' rest' hfr' hst => ?_, fun f hmem => ?_⟩
    · exact absurd hst (hrest _ (by rw [← hf, hfr']; exact List.mem_cons_self))
    · exact hrest f (hf ▸ List.mem_of_mem_tail hmem)
  | call f g hst hf hf' hg => exact hpush f g hf (by simp [hf']) (by simp [hg])
  | operate f g hst hf hop hexp hg =>
    obtain ⟨k, hk⟩ := hop
    exact hpush f g hf (fun h0 => opState_ne_ef0 k (h0 ▸ hk)) (by simp [hg])
  | next f hst hf hf' hstk htmp hi =>
    refine ⟨fun fr' rest' hfr' _ => ?_, fun f' hmem => ?_⟩
    · cases hf.symm.trans hfr'
      exact ⟨hstk, hi⟩
    · rw [hf] at hmem
      exact hrest _ hmem

lemma inv_init {w : ω} {ts : List Tree} {stack heap : ℕ}
    (h : runProgStack w ts stack heap = some c) : Inv c := by
  obtain ⟨_, -, rfl⟩ := Option.map_eq_some_iff.mp h
  refine ⟨fun fr rest hfr hst => ?_, by simp⟩
  cases hfr
  cases hst

lemma inv_reachable (hc : (runSystem N).Reachable c) : Inv c := by
  have hI : (runSystem N).Invariant Inv := by
    constructor
    · rintro c ⟨w, code, ts, stack, heap, -, h⟩
      exact inv_init h
    · rintro c c' h ⟨n, hs⟩
      exact inv_step h hs
  exact hI.reachable hc

/-- The frame at the top comes to an element of the list `xs`. -/
structure AtElement (c : Config ω) (fr : Frame) (xs : List ℕ) : Prop where
  top : c.frames.head? = some fr
  list : elems c.store fr.exp = some xs
  state : fr.state = .ef0 ∨ fr.state = .ef ∧ fr.i < xs.length

lemma AtElement.lt (ha : AtElement c fr xs) (hc : (runSystem N).Reachable c) :
    fr.i < xs.length := by
  obtain ⟨rest, hfr⟩ := List.head?_eq_some_iff.mp ha.top
  rcases ha.state with hst | ⟨-, hi⟩
  · exact ((inv_reachable hc).top fr rest hfr hst).2 xs ha.list
  · exact hi

/-- The list that is made to hold the values is no operator. -/
lemma isOp_alloc (s : Store) (x : ℕ) :
    isOp opState (alloc s (.arr (some []))).1 x = isOp opState s x := by
  unfold isOp keyOf
  rw [deref_alloc]
  by_cases hx : x = s.length + 1
  · rw [if_pos hx, hx, deref_fresh]
    rfl
  · rw [if_neg hx]

lemma stepEf0_past (ha : elems c.store fr.exp = some xs) (hi : fr.i < xs.length)
    (h : ¬ InBounds opState c.store xs fr.i) : stepEf0 c fr rest = none := by
  rw [stepEf0, ha, Option.bind_some, opLoop_none hi h, Option.bind_none]

/-- Past the end of the list there is no next state. -/
lemma step_past (ha : AtElement c fr xs) (hi : fr.i < xs.length)
    (h : ¬ InBounds opState c.store xs fr.i) (n : ℕ) : step N c n = none := by
  obtain ⟨rest, hfr⟩ := List.head?_eq_some_iff.mp ha.top
  rcases ha.state with hst | ⟨hst, -⟩
  · simp only [step, hfr, hst]
    exact stepEf0_past ha.list hi h
  · have hlist := elems_eq ha.list
    simp only [step, hfr, hst, stepEf, hlist, Option.bind_some, if_neg (not_le.mpr hi)]
    have hne : fr.exp ≠ c.store.length + 1 := by
      rintro heq
      rw [heq, deref_fresh] at hlist
      cases hlist
    have hel : elems (alloc c.store (.arr (some []))).1 fr.exp = some xs := by
      rw [elems, deref_alloc, if_neg hne, hlist]
    refine stepEf0_past hel hi fun hin => h ?_
    rw [bounds_kept_iff hi] at hin ⊢
    simpa only [isOp_alloc] using hin

lemma evalLoop_past {chk : Check} {eval : Store → ℕ → ℕ → Option (Store × ℕ)}
    {exp self tmp : ℕ} (ha : elems s exp = some xs) (hi : i < xs.length)
    (h : ¬ InBounds EvalFn.ops s xs i) : evalLoop chk eval n exp self tmp (k + 1) s i = none := by
  rw [evalLoop, ha, Option.bind_some, if_pos hi, opLoop_none hi h, Option.bind_none]

/-- **Indices**: where an element is evaluated the loop over its operators stays in the list if and
only if these do not reach to its end, as in a list that does not end in an operator. -/
theorem indices_in_bounds_iff (N : Native ω) (chk : Check)
    (eval : Store → ℕ → ℕ → Option (Store × ℕ)) :
    (∀ (c : Config ω) (fr : Frame) (xs : List ℕ), (runSystem N).Reachable c → AtElement c fr xs →
      (InBounds opState c.store xs fr.i ↔ ∃ x ∈ xs.drop fr.i, isOp opState c.store x = false) ∧
      ((∀ x ∈ xs.getLast?, isOp opState c.store x = false) → InBounds opState c.store xs fr.i) ∧
      (¬ InBounds opState c.store xs fr.i → ∀ n, step N c n = none)) ∧
    ∀ (n exp self tmp k : ℕ) (s : Store) (i : ℕ) (xs : List ℕ), elems s exp = some xs →
      i < xs.length →
      (InBounds EvalFn.ops s xs i ↔ ∃ x ∈ xs.drop i, isOp EvalFn.ops s x = false) ∧
      ((∀ x ∈ xs.getLast?, isOp EvalFn.ops s x = false) → InBounds EvalFn.ops s xs i) ∧
      (¬ InBounds EvalFn.ops s xs i → evalLoop chk eval n exp self tmp (k + 1) s i = none) :=
  ⟨fun _ _ _ hc ha => ⟨bounds_kept_iff (ha.lt hc), inBounds_of_last (ha.lt hc),
    fun h n => step_past ha (ha.lt hc) h n⟩,
    fun _ _ _ _ _ _ _ _ ha hi => ⟨bounds_kept_iff hi, inBounds_of_last hi, evalLoop_past ha hi⟩⟩

lemma reachable_rounds {m : ℕ} (hc : (runSystem N).Reachable c) (h : rounds N n m c = some c') :
    (runSystem N).Reachable c' := by
  induction m generalizing c with
  | zero =>
    cases h
    exact hc
  | succ m ih =>
    obtain ⟨c₁, h1, h2⟩ := Option.bind_eq_some_iff.mp h
    exact ih (hc.step ⟨n, h1⟩) h2

/-- The program `:x 1 ~`: the first element, behind an operator, is found in the list, and the last
is read past its end. -/
theorem indices_in_bounds_call : ∃ (c c' : Config Unit) (fr fr' : Frame) (xs : List ℕ),
    (runSystem noNative).Reachable c ∧ AtElement c fr xs ∧ fr.i = 0 ∧
    (∃ x, xs[0]? = some x ∧ isOp opState c.store x) ∧ InBounds opState c.store xs 0 ∧
    (runSystem noNative).Reachable c' ∧ AtElement c' fr' xs ∧ fr'.i = 3 ∧
    ¬ InBounds opState c'.store xs 3 ∧ ∀ n, step noNative c' n = none := by
  have htok : tokenize [58, 120, 32, 49, 32, 126] =
    some [.str [58], .str [120], .num [1, 0], .str [126]] := rfl
  obtain ⟨c₀, h0, c, h1, h2, h3, h4, h5, c', h6, h7, h8, h9⟩ : ∃ c₀, runProgStack () [.str [58],
      .str [120], .num [1, 0], .str [126]] 0 0 = some c₀ ∧
      ∃ c, rounds noNative 1 1 c₀ = some c ∧
      c.frames.head? = some { self := 13, exp := 5, state := .ef } ∧
      elems c.store 5 = some [1, 2, 3, 4] ∧ isOp opState c.store 1 = true ∧
      isOp opState c.store 2 = false ∧ ∃ c', rounds noNative 1 4 c = some c' ∧
      c'.frames.head? = some { self := 13, exp := 5, tmp := 14, i := 3, state := .ef0 } ∧
      elems c'.store 5 = some [1, 2, 3, 4] ∧ isOp opState c'.store 4 = true :=
    ⟨_, rfl, _, rfl, rfl, rfl, rfl, rfl, _, rfl, rfl, rfl, rfl⟩
  have hc : (runSystem noNative).Reachable c :=
    reachable_rounds (.init ⟨(), _, _, 0, 0, htok, h0⟩) h1
  have hc' := reachable_rounds hc h6
  have ha : AtElement c _ [1, 2, 3, 4] := ⟨h2, h3, .inr ⟨rfl, by decide⟩⟩
  have ha' : AtElement c' _ [1, 2, 3, 4] := ⟨h7, h8, .inl rfl⟩
  obtain ⟨hiff, -⟩ := (indices_in_bounds_iff noNative .none fun _ _ _ => none).1 c _ _ hc ha
  obtain ⟨hiff', -, hpast⟩ :=
    (indices_in_bounds_iff noNative .none fun _ _ _ => none).1 c' _ _ hc' ha'
  have hout : ¬ InBounds opState c'.store [1, 2, 3, 4] 3 := by
    rw [hiff']
    simp [h9]
  exact ⟨c, c', _, _, _, hc, ha, rfl, ⟨1, rfl, h4⟩, hiff.mpr ⟨2, by simp, h5⟩, hc', ha', rfl, hout,
    hpast hout⟩

/-- The program `~` is read past its end. -/
theorem indices_past_end : ¬ ∀ (c : Config Unit) (fr : Frame) (xs : List ℕ),
    (runSystem noNative).Reachable c → AtElement c fr xs → InBounds opState c.store xs fr.i := by
  intro hall
  obtain ⟨c₀, h0, c, h1, h2, h3, h4⟩ : ∃ c₀, runProgStack () [.str [126]] 0 0 = some c₀ ∧
      ∃ c, rounds noNative 1 1 c₀ = some c ∧
      c.frames.head? = some { self := 10, exp := 2, state := .ef } ∧
      elems c.store 2 = some [1] ∧ isOp opState c.store 1 = true :=
    ⟨_, rfl, _, rfl, rfl, rfl, rfl⟩
  have hc : (runSystem noNative).Reachable c :=
    reachable_rounds (.init ⟨(), [126], _, 0, 0, rfl, h0⟩) h1
  have ha : AtElement c _ [1] := ⟨h2, h3, .inr ⟨rfl, Nat.zero_lt_one⟩⟩
  obtain ⟨x, hx, hop⟩ := (bounds_kept_iff (ha.lt hc)).mp (hall c _ [1] hc ha)
  rw [List.drop_zero, List.mem_singleton] at hx
  subst hx
  exact Bool.noConfusion (hop.symm.trans h4)

end LispMachine.Elements
