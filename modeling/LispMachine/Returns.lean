import LispMachine.InterpStep

/-!
Returns from calls: when `del_fn` finds the binding of `sup` that it takes away.

Beside the state of the evaluator a run records the set of the functions linked so far: those of
calls to a function in which `sup` is bound or that has a parameter `sup`, and those in which `sup`
was bound with `|`.
-/

namespace LispMachine.Returns

open LispMachine.Lib.Run LispMachine.Reader LispMachine.Interp LispMachine.InterpStep

variable {ω : Type} {N : Native ω}

/-- `sup` is bound in the namespace of a function. -/
def HasSup (s : Store) (f : ℕ) : Prop := ∃ ns, nsOf s f = some ns ∧ ns sup ≠ none

/-- The function that the next round links. -/
inductive Links (c : Config ω) : ℕ → Prop
  | call {fr : Frame} {rest : List Frame} {ns : Ns} {exp : ℕ} {names xs : List ℕ}
    (hfr : c.frames = fr :: rest) (h : Calls c.store fr ns exp names xs)
    (hsup : ns sup ≠ none ∨ ∃ a ∈ names, keyOf c.store a = some sup) : Links c (c.store.length + 1)
  | name {fr : Frame} {rest : List Frame} {key : ℕ} (hfr : c.frames = fr :: rest)
    (h : fr.state = .nf) (hkey : objArrayIdx c.store fr.exp 0 = some key)
    (hk : keyOf c.store key = some sup) : Links c fr.self

/-- All functions are still there, with `sup` bound in the same ones. -/
def KeepsSup (s s' : Store) : Prop :=
  ∀ f ns, nsOf s f = some ns → ∃ ns', nsOf s' f = some ns' ∧ (ns' sup = none ↔ ns sup = none)

/-- The runs of `_run_prog` from `run_prog_stack`, in which bytecode does not touch `sup`. -/
def returnSystem (N : Native ω) : System (Config ω × Set ℕ) where
  init S := S.2 = ∅ ∧ ∃ w code ts stack heap, tokenize code = some ts ∧
    runProgStack w ts stack heap = some S.1
  step S S' := (∃ n, step N S.1 n = some S'.1) ∧
    (∀ fr rest, S.1.frames = fr :: rest → Runs S.1.store fr → KeepsSup S.1.store S'.1.store) ∧
    S'.2 = S.2 ∪ {f | Links S.1 f}

/-- The functions of the calls that have not returned. -/
def pending (frames : List Frame) : List ℕ :=
  (frames.filter fun fr => fr.state = .cfRet).map Frame.tmp

lemma pending_cons (fr : Frame) (rest : List Frame) :
    pending (fr :: rest) = if fr.state = .cfRet then fr.tmp :: pending rest else pending rest := by
  unfold pending
  by_cases h : fr.state = .cfRet <;> simp [h]

lemma pending_append {fs rest : List Frame} (h : ∀ f ∈ fs, f.state ≠ .cfRet) :
    pending (fs ++ rest) = pending rest := by
  induction fs with
  | nil => rfl
  | cons f fs ih =>
    rw [List.forall_mem_cons] at h
    rw [List.cons_append, pending_cons, if_neg h.1, ih h.2]

variable {c c' : Config ω} {fr : Frame} {rest : List Frame} {L : Set ℕ}

lemma links_empty (hfr : c.frames = fr :: rest) (hst : fr.state ≠ .nf)
    (h : ∀ ns exp names xs, ¬ Calls c.store fr ns exp names xs) : {f | Links c f} = ∅ := by
  ext f
  refine ⟨fun hl => ?_, False.elim⟩
  cases hl with
  | call hfr' hc =>
    cases hfr.symm.trans hfr'
    exact h _ _ _ _ hc
  | name hfr' hst' =>
    cases hfr.symm.trans hfr'
    exact hst hst'

lemma links_of_call (hfr : c.frames = fr :: rest) {ns : Ns} {exp : ℕ} {names xs : List ℕ}
    (hc : Calls c.store fr ns exp names xs) (f : ℕ) : Links c f ↔ f = c.store.length + 1 ∧
      (ns sup ≠ none ∨ ∃ a ∈ names, keyOf c.store a = some sup) := by
  constructor
  · rintro (⟨hfr', hc', hsup⟩ | ⟨hfr', hst'⟩)
    · cases hfr.symm.trans hfr'
      obtain ⟨rfl, rfl⟩ := hc.unique hc'
      exact ⟨rfl, hsup⟩
    · cases hfr.symm.trans hfr'
      exact absurd (hc.state.symm.trans hst') (by decide)
  · rintro ⟨rfl, hsup⟩
    exact .call hfr hc hsup

/-- What holds of the functions of open calls and of the set of linked functions. -/
structure Inv (c : Config ω) (L : Set ℕ) : Prop where
  nodup : (pending c.frames).Nodup
  linked : ∀ f ∈ pending c.frames, ∃ ns, nsOf c.store f = some ns ∧ (ns sup = none ↔ f ∉ L)
  known : ∀ f ∈ L, nsOf c.store f ≠ none

lemma Inv.congr (h : Inv c L) (hf : pending c'.frames = pending c.frames)
    (hs : KeepsSup c.store c'.store) : Inv c' L := by
  refine ⟨hf ▸ h.nodup, fun f hmem => ?_, fun f hmem => ?_⟩
  · obtain ⟨ns, h1, h2⟩ := h.linked f (hf ▸ hmem)
    obtain ⟨ns', h3, h4⟩ := hs f ns h1
    exact ⟨ns', h3, h4.trans h2⟩
  · obtain ⟨ns, h1⟩ := Option.ne_none_iff_exists'.mp (h.known f hmem)
    obtain ⟨ns', h3, -⟩ := hs f ns h1
    simp [h3]

lemma keepsSup_of_eq {s s' : Store} (h : nsOf s' = nsOf s) : KeepsSup s s' :=
  fun f ns hf => ⟨ns, by rw [h, hf], Iff.rfl⟩

lemma Inv.ne_fresh (h : Inv c L) : c.store.length + 1 ∉ L ∧
    c.store.length + 1 ∉ pending c.frames := by
  have hfresh : nsOf c.store (c.store.length + 1) = none := by rw [nsOf, deref_fresh]
  refine ⟨fun hmem => h.known _ hmem hfresh, fun hmem => ?_⟩
  obtain ⟨ns, h1, -⟩ := h.linked _ hmem
  exact Option.some_ne_none _ (h1.symm.trans hfresh)

lemma Inv.call (h : Inv c L) (hfr : c.frames = fr :: rest) (hst : fr.state = .cf) {tmpNs : Ns}
    {exp : ℕ} (hf : c'.frames = { self := c.store.length + 1, exp, state := .ef } ::
      { fr with state := .cfRet, tmp := c.store.length + 1 } :: rest)
    (hs : nsOf c'.store = Function.update (nsOf c.store) (c.store.length + 1) (some tmpNs))
    {P : Prop} (hsup : tmpNs sup = none ↔ ¬ P) :
    Inv c' (L ∪ {f | f = c.store.length + 1 ∧ P}) := by
  obtain ⟨hL, hp⟩ := h.ne_fresh
  have hpend : pending c'.frames = (c.store.length + 1) :: pending c.frames := by
    rw [hf, hfr, pending_cons, if_neg (by simp), pending_cons, if_pos rfl, pending_cons,
      if_neg (by simp [hst])]
  refine ⟨hpend ▸ List.nodup_cons.mpr ⟨hp, h.nodup⟩, fun f hmem => ?_, fun f hmem => ?_⟩
  · rw [hpend] at hmem
    rcases List.mem_cons.mp hmem with rfl | hmem
    · refine ⟨tmpNs, by rw [hs, Function.update_self], ?_⟩
      simp [hsup, hL]
    · have hne : f ≠ c.store.length + 1 := fun heq => hp (heq ▸ hmem)
      obtain ⟨ns, h1, h2⟩ := h.linked f hmem
      exact ⟨ns, by rw [hs, Function.update_of_ne hne, h1], by simp [h2, hne]⟩
  · rw [hs]
    by_cases hne : f = c.store.length + 1
    · rw [hne, Function.update_self]
      simp
    · rw [Function.update_of_ne hne]
      rcases hmem with hmem | ⟨heq, -⟩
      · exact h.known f hmem
      · exact absurd heq hne

lemma Inv.ret (h : Inv c L) (hfr : c.frames = fr :: rest) (hst : fr.state = .cfRet)
    (hf : c'.frames = rest) {ns : Ns}
    (hs : nsOf c'.store = nsOf c.store ∨ nsOf c'.store = Function.update (nsOf c.store) fr.tmp
      (some ns)) : Inv c' L := by
  have hpend : pending c.frames = fr.tmp :: pending c'.frames := by
    rw [hfr, hf, pending_cons, if_pos hst]
  obtain ⟨hnot, hnd⟩ := List.nodup_cons.mp (hpend ▸ h.nodup)
  refine ⟨hnd, fun f hmem => ?_, fun f hmem => ?_⟩
  · have hne : f ≠ fr.tmp := fun heq => hnot (heq ▸ hmem)
    obtain ⟨ns, h1, h2⟩ := h.linked f (by simp [hpend, hmem])
    refine ⟨ns, ?_, h2⟩
    rcases hs with hs | hs
    · rw [hs, h1]
    · rw [hs, Function.update_of_ne hne, h1]
  · rcases hs with hs | hs <;> rw [hs]
    · exact h.known f hmem
    · by_cases hne : f = fr.tmp
      · rw [hne, Function.update_self]
        simp
      · rw [Function.update_of_ne hne]
        exact h.known f hmem

lemma Inv.name (h : Inv c L) (hf : pending c'.frames = pending c.frames) {self v : ℕ} {k : Key}
    {ns : Ns} (hself : nsOf c.store self = some ns)
    (hs : nsOf c'.store = Function.update (nsOf c.store) self
      (some (Function.update ns k (some v)))) : Inv c' (L ∪ {f | f = self ∧ k = sup}) := by
  refine ⟨hf ▸ h.nodup, fun f hmem => ?_, fun f hmem => ?_⟩
  · obtain ⟨ns₁, h1, h2⟩ := h.linked f (hf ▸ hmem)
    by_cases hne : f = self
    · subst hne
      cases hself.symm.trans h1
      refine ⟨_, by rw [hs, Function.update_self], ?_⟩
      by_cases hk : k = sup
      · simp [hk]
      · simp [Function.update_of_ne (Ne.symm hk), hk, h2]
    · exact ⟨ns₁, by rw [hs, Function.update_of_ne hne, h1], by simp [h2, hne]⟩
  · rw [hs]
    by_cases hne : f = self
    · rw [hne, Function.update_self]
      simp
    · rw [Function.update_of_ne hne]
      rcases hmem with hmem | ⟨heq, -⟩
      · exact h.known f hmem
      · exact absurd heq hne

/-- A round keeps the invariant. -/
lemma inv_step {n : ℕ} (h : Inv c L) (hstep : step N c n = some c')
    (hkeep : ∀ fr rest, c.frames = fr :: rest → Runs c.store fr → KeepsSup c.store c'.store) :
    Inv c' (L ∪ {f | Links c f}) := by
  obtain ⟨fr, rest, hfr, ⟨hrun, hf⟩ | ⟨-, hmove⟩⟩ := step_cases hstep
  · have hst : fr.state ≠ .cfRet ∧ fr.state ≠ .nf := by
      rcases hrun with h1 | ⟨h1, -⟩ <;> simp [h1]
    have hno : {f | Links c f} = ∅ := by
      refine links_empty hfr hst.2 fun ns exp names xs hc => ?_
      obtain ⟨hcf, ⟨g, args, h1, h2, -⟩, -⟩ := hc
      rcases hrun with h3 | ⟨-, g', xs', ws, h3, h4⟩
      · exact absurd (h3.symm.trans hcf) (by decide)
      · cases h1.symm.trans h3
        cases h2.symm.trans h4
    rw [hno, Set.union_empty]
    exact h.congr (by rw [hf, hfr, pending_cons, if_neg hst.1]) (hkeep fr rest hfr hrun)
  · cases hmove with
    | quiet hret hnf hq hcall =>
      obtain ⟨hs, fs, hf, hfs⟩ := hq
      rw [links_empty hfr hnf hcall, Set.union_empty]
      refine h.congr ?_ (keepsSup_of_eq hs)
      rw [hf, pending_append fun f hmem => (hfs f hmem).2.1, hfr, pending_cons, if_neg hret]
    | call ns tmpNs exp names xs hc hsup hval hf hs =>
      simp only [links_of_call hfr hc]
      refine h.call hfr hc.state hf hs ?_
      rw [hsup]
      push Not
      rfl
    | ret ns p hst hns hp hf hs =>
      rw [links_empty hfr (by simp [hst]) fun _ _ _ _ hc => absurd (hst.symm.trans hc.state)
        (by decide), Set.union_empty]
      exact h.ret hfr hst hf hs
    | define ns hst hns hself hf hs =>
      rw [links_empty hfr (by simp [hst]) fun _ _ _ _ hc => absurd (hst.symm.trans hc.state)
        (by decide), Set.union_empty]
      refine h.congr (by rw [hf, hfr, pending_cons, if_neg (by simp [hst])]) fun f ns' h1 => ?_
      have hne : f ≠ c.store.length + 1 := by
        rintro rfl
        rw [nsOf, deref_fresh] at h1
        cases h1
      exact ⟨ns', by rw [hs, Function.update_of_ne hne, h1], Iff.rfl⟩
    | name ns key v k hst hns hkey hk hv hval hf hs =>
      have hlinks : {f | Links c f} = {f | f = fr.self ∧ k = sup} := by
        ext f
        constructor
        · rintro (⟨hfr', hc, -⟩ | ⟨hfr', -, hkey', hk'⟩)
          · cases hfr.symm.trans hfr'
            exact absurd (hst.symm.trans hc.state) (by decide)
          · cases hfr.symm.trans hfr'
            cases hkey.symm.trans hkey'
            exact ⟨rfl, Option.some.inj (hk.symm.trans hk')⟩
        · rintro ⟨rfl, rfl⟩
          exact .name hfr hst hkey hk
      rw [hlinks]
      exact h.name (by rw [hf, hfr, pending_cons, if_neg (by simp [hst])]) hns hs

lemma inv_init {w : ω} {ts : List Tree} {stack heap : ℕ}
    (h : runProgStack w ts stack heap = some c) : Inv c ∅ := by
  obtain ⟨_, -, rfl⟩ := Option.map_eq_some_iff.mp h
  exact ⟨.nil, by simp [pending], by simp⟩

/-- **Returns**: `del_fn` finds `sup` bound if and only if the function of the call was linked. -/
theorem del_fn_finds_sup {S : Config ω × Set ℕ} (hS : (returnSystem N).Reachable S)
    (hfr : S.1.frames = fr :: rest) (hst : fr.state = .cfRet) :
    HasSup S.1.store fr.tmp ↔ fr.tmp ∈ S.2 := by
  have hI : (returnSystem N).Invariant fun S => Inv S.1 S.2 := by
    constructor
    · rintro ⟨c, L⟩ ⟨rfl, w, code, ts, stack, heap, -, h⟩
      exact inv_init h
    · rintro ⟨c, L⟩ ⟨c', L'⟩ h ⟨⟨n, h1⟩, h2, rfl⟩
      exact inv_step h h1 h2
  have hmem : fr.tmp ∈ pending S.1.frames := by simp [hfr, pending_cons, hst]
  obtain ⟨ns, h1, h2⟩ := (hI.reachable hS).linked _ hmem
  constructor
  · rintro ⟨ns', h3, h4⟩
    cases h1.symm.trans h3
    exact not_not.mp (mt h2.mpr h4)
  · exact fun h => ⟨ns, h1, fun h0 => h2.mp h0 h⟩

lemma reachable_step {c c' : Config Unit} {L : Set ℕ} (n : ℕ)
    (h : (returnSystem noNative).Reachable (c, L)) (hs : step noNative c n = some c') :
    (returnSystem noNative).Reachable (c', L ∪ {f | Links c f}) := by
  refine h.step ⟨⟨n, hs⟩, fun fr rest hfr hrun => ?_, rfl⟩
  cases (step_noNative hfr hrun).symm.trans hs

/-- The program `1` returns from its main function, in which `sup` is not bound. -/
lemma exists_return : ∃ S fr, (returnSystem noNative).Reachable S ∧ S.1.frames = [fr] ∧
    fr.state = .cfRet ∧ ¬ HasSup S.1.store fr.tmp := by
  obtain ⟨c, h⟩ : ∃ c, runProgStack () [.num [1, 0]] 0 0 = some c := ⟨_, rfl⟩
  have h0 : (returnSystem noNative).Reachable (c, ∅) := .init ⟨rfl, (), [49], _, 0, 0, rfl, h⟩
  cases h
  refine ⟨_, { self := 6, exp := 9, tmp := 10, state := .cfRet },
    reachable_step 1 (reachable_step 1 h0 rfl) rfl, rfl, rfl, ?_⟩
  rintro ⟨ns, h1, h2⟩
  cases h1
  exact h2 rfl

/-- At the end of the program `1` there is no pair to take away. -/
theorem del_fn_misses_sup : ¬ ∀ (S : Config Unit × Set ℕ) (fr : Frame) (rest : List Frame),
    (returnSystem noNative).Reachable S → S.1.frames = fr :: rest → fr.state = .cfRet →
    HasSup S.1.store fr.tmp := by
  intro h
  obtain ⟨S, fr, h1, h2, h3, h4⟩ := exists_return
  exact h4 (h S fr [] h1 h2 h3)

lemma reachable_rounds {c c' : Config Unit} {L : Set ℕ} {n m : ℕ}
    (h : (returnSystem noNative).Reachable (c, L)) (hs : rounds noNative n m c = some c') :
    ∃ L', (returnSystem noNative).Reachable (c', L') ∧ L ⊆ L' := by
  induction m generalizing c L with
  | zero =>
    cases hs
    exact ⟨L, h, subset_rfl⟩
  | succ m ih =>
    obtain ⟨c₁, h1, h2⟩ := Option.bind_eq_some_iff.mp hs
    obtain ⟨L', h3, h4⟩ := ih (reachable_step n h h1) h2
    exact ⟨L', h3, Set.subset_union_left.trans h4⟩

/-- The program `|[sup 5] 1` binds `sup` in its main function, which is linked at its return. -/
theorem del_fn_finds_sup_name : ∃ S fr, (returnSystem noNative).Reachable S ∧ S.1.frames = [fr] ∧
    fr.state = .cfRet ∧ fr.tmp ∈ S.2 ∧ HasSup S.1.store fr.tmp := by
  have htok : tokenize [124, 91, 115, 117, 112, 32, 53, 93, 32, 49] =
    some [.str [124], .arr [.str [115, 117, 112], .num [5, 0]], .num [1, 0]] := rfl
  obtain ⟨c₀, h0, c₁, h1, hfr, hkey, hk, c₂, h2, hfr'⟩ : ∃ c₀, runProgStack () [.str [124],
      .arr [.str [115, 117, 112], .num [5, 0]], .num [1, 0]] 0 0 = some c₀ ∧
      ∃ c₁, rounds noNative 1 2 c₀ = some c₁ ∧
      c₁.frames.head? = some { self := 14, exp := 4, state := .nf } ∧
      objArrayIdx c₁.store 4 0 = some 2 ∧ keyOf c₁.store 2 = some sup ∧
      ∃ c₂, rounds noNative 1 3 c₁ = some c₂ ∧
      c₂.frames = [{ self := 10, exp := 13, tmp := 14, state := .cfRet }] :=
    ⟨_, rfl, _, rfl, rfl, rfl, rfl, _, rfl, rfl⟩
  obtain ⟨rest, hrest⟩ := List.head?_eq_some_iff.mp hfr
  have hinit : (returnSystem noNative).Reachable (c₀, ∅) :=
    .init ⟨rfl, (), _, _, 0, 0, htok, h0⟩
  obtain ⟨L₁, hL₁, -⟩ := reachable_rounds hinit h1
  have hlink : Links c₁ 14 := .name hrest rfl hkey hk
  obtain ⟨c, hc, h3⟩ := Option.bind_eq_some_iff.mp h2
  obtain ⟨L₂, hL₂, hsub⟩ := reachable_rounds (reachable_step 1 hL₁ hc) h3
  have hmem : 14 ∈ L₂ := hsub (.inr hlink)
  exact ⟨(c₂, L₂), _, hL₂, hfr', rfl, hmem, (del_fn_finds_sup hL₂ hfr' rfl).mpr hmem⟩

end LispMachine.Returns
