import LispMachine.InterpStep
import LispMachine.Lib.Links

/-!
Variable lookup: the namespaces that `get_val` searches, and when its search ends.

The functions are linked by their bindings of `sup`. Programs here are programs without the
operator `<`, so that neither the assembler nor bytecode runs.
-/

namespace LispMachine.Scope

open Relation
open LispMachine.Lib.Run LispMachine.Lib.Links LispMachine.Reader
open LispMachine.Interp LispMachine.InterpStep

variable {ω : Type} {N : Native ω} {s s' : Store} {c c' : Config ω}

/-- The function `f` binds `sup` to the function `g`. -/
def Up (s : Store) (f g : ℕ) : Prop := ∃ ns, nsOf s f = some ns ∧ ns sup = some g ∧ nsOf s g ≠ none

/-- The functions on the chain from `f` on. -/
inductive Chain (s : Store) : ℕ → List ℕ → Prop
  | last {f : ℕ} (h : ∀ g, ¬ Up s f g) : Chain s f [f]
  | cons {f g : ℕ} {l : List ℕ} (h : Up s f g) (hl : Chain s g l) : Chain s f (f :: l)

/-- What the first of the functions that binds a key binds it to. -/
def nearest (s : Store) (k : Key) (l : List ℕ) : Option ℕ :=
  l.findSome? fun f => (nsOf s f).bind fun ns => ns k

/-! ### Programs without `<` -/

mutual
/-- The words of the names and numerals in a tree of tokens. -/
def words : Tree → List (List ℕ)
  | .str ws => [ws]
  | .num ws => [ws]
  | .arr ts => wordsList ts
def wordsList : List Tree → List (List ℕ)
  | [] => []
  | t :: ts => words t ++ wordsList ts
end

/-- No object is the operator `<`, and none is bytecode. -/
structure Plain (s : Store) : Prop where
  comp : ∀ r, keyOf s r ≠ some (.words [60])
  bcode : ∀ r ws, deref s r ≠ some (.bcode ws)

lemma Plain.atoms (h : Plain s) (ha : Atoms s s') : Plain s' := by
  refine ⟨fun r hr => h.comp r (ha.key hr), fun r ws hr => ?_⟩
  rcases ha.old r _ hr with h1 | ⟨xs, h1⟩ | ⟨ns, args, exp, h1⟩
  · exact h.bcode r ws h1
  · cases h1
  · cases h1

lemma Plain.alloc (h : Plain s) {o : Obj} (ho : ∀ r, o.key r ≠ .words [60])
    (ho' : ∀ ws, o ≠ .bcode ws) : Plain (alloc s o).1 := by
  refine ⟨fun r hr => ?_, fun r ws hr => ?_⟩
  · obtain ⟨o', h1, h2⟩ := Option.map_eq_some_iff.mp hr
    rw [deref_alloc] at h1
    split_ifs at h1
    · cases h1
      exact ho r h2
    · exact h.comp r (by rw [keyOf, h1, Option.map_some, h2])
  · rw [deref_alloc] at hr
    split_ifs at hr
    · exact ho' ws (Option.some.inj hr)
    · exact h.bcode r ws hr

mutual
lemma plain_load : ∀ (t : Tree) {s : Store}, Plain s → [60] ∉ words t → Plain (load s t).1
  | .str ws, _, h, ht => h.alloc (by simpa [Obj.key, words, eq_comm] using ht) (by simp)
  | .num ws, _, h, ht => h.alloc (by simpa [Obj.key, words, eq_comm] using ht) (by simp)
  | .arr ts, _, h, ht => (plain_loadList ts h ht).alloc (by simp [Obj.key]) (by simp)
lemma plain_loadList : ∀ (ts : List Tree) {s : Store}, Plain s → [60] ∉ wordsList ts →
    Plain (loadList s ts).1
  | [], _, h, _ => h
  | t :: ts, _, h, ht => by
    rw [wordsList, List.mem_append, not_or] at ht
    exact plain_loadList ts (plain_load t h ht.1) ht.2
end

/-! ### The search -/

lemma Up.unique {f g g' : ℕ} (h : Up s f g) (h' : Up s f g') : g' = g := by
  obtain ⟨ns, h1, h2, -⟩ := h
  obtain ⟨ns', h1', h2', -⟩ := h'
  cases h1.symm.trans h1'
  exact Option.some.inj (h2'.symm.trans h2)

/-- What the bindings of `sup` are bound to are objects. -/
def Bound (s : Store) : Prop := ∀ f ns p, nsOf s f = some ns → ns sup = some p → deref s p ≠ none

lemma getValLoop_last {k : Key} {f : ℕ} {ns : Ns} (hs : Bound s) (hf : nsOf s f = some ns)
    (h : ∀ g, ¬ Up s f g) (n : ℕ) : getValLoop s k (n + 1) ns = some (ns k) := by
  cases hsup : ns sup with
  | none => simp only [getValLoop, hsup]
  | some p =>
    obtain ⟨o, ho⟩ := Option.ne_none_iff_exists'.mp (hs f ns p hf hsup)
    simp only [getValLoop, hsup, ho]
    cases o with
    | fn ns' args exp => exact absurd ⟨ns, hf, hsup, by simp [nsOf_fn ho]⟩ (h p)
    | _ => rfl

lemma getValLoop_up {k : Key} {f g : ℕ} {ns : Ns} (hf : nsOf s f = some ns) (h : Up s f g) :
    ∃ ns', nsOf s g = some ns' ∧ ∀ n, getValLoop s k (n + 1) ns =
      match ns k with
      | some v => some (some v)
      | none => getValLoop s k n ns' := by
  obtain ⟨ns₁, h1, h2, h3⟩ := h
  cases hf.symm.trans h1
  obtain ⟨ns', h4⟩ := Option.ne_none_iff_exists'.mp h3
  obtain ⟨args, exp, h5⟩ := deref_of_nsOf h4
  refine ⟨ns', h4, fun n => ?_⟩
  cases hk : ns k <;> simp only [getValLoop, h2, h5, hk]

/-- **The search** along a chain finds the nearest binding. -/
lemma getValLoop_chain {k : Key} {f : ℕ} {l : List ℕ} (hs : Bound s) (hl : Chain s f l) {ns : Ns}
    (hf : nsOf s f = some ns) (n : ℕ) (hn : l.length ≤ n) :
    getValLoop s k n ns = some (nearest s k l) := by
  induction hl generalizing n ns with
  | last h =>
    obtain ⟨n, rfl⟩ := Nat.exists_eq_add_of_le' hn
    rw [List.length_singleton, getValLoop_last hs hf h]
    simp [nearest, hf]
  | cons h hl ih =>
    obtain ⟨n, rfl⟩ := Nat.exists_eq_add_of_le' hn
    obtain ⟨ns', h1, h2⟩ := getValLoop_up (k := k) hf h
    rw [List.length_cons, ← Nat.add_assoc, h2]
    rw [nearest, List.findSome?_cons, hf, Option.bind_some]
    cases ns k with
    | some v => rfl
    | none => exact ih h1 _ (by omega)

/-- A chain that ends is a list. -/
lemma exists_chain {f : ℕ} (h : Ends (Up s) f) : ∃ l, Chain s f l := by
  induction h with
  | intro f _ ih =>
    by_cases hup : ∃ g, Up s f g
    · obtain ⟨g, hg⟩ := hup
      obtain ⟨l, hl⟩ := ih g hg
      exact ⟨f :: l, .cons hg hl⟩
    · exact ⟨[f], .last (not_exists.mp hup)⟩

/-- On a circle a key that nothing on it binds is searched for ever. -/
lemma getValLoop_circle {k : Key} {f : ℕ} {ns : Ns} (hf : nsOf s f = some ns)
    (hsup : ns sup = some f) (hk : ns k = none) (n : ℕ) : getValLoop s k n ns = none := by
  induction n with
  | zero => rfl
  | succ n ih =>
    obtain ⟨ns', h1, h2⟩ := getValLoop_up (k := k) hf ⟨ns, hf, hsup, by simp [hf]⟩
    cases hf.symm.trans h1
    rw [h2, hk, ih]

/-! ### Runs -/

/-- The next round binds `sup` with `|` to a function whose chain leads back. -/
def Closes (c : Config ω) : Prop := ∃ fr rest key v, c.frames = fr :: rest ∧ fr.state = .nf ∧
  objArrayIdx c.store fr.exp 0 = some key ∧ keyOf c.store key = some sup ∧
  objArrayIdx c.store fr.exp 1 = some v ∧ ReflTransGen (Up c.store) v fr.self

/-- The runs of the programs over `~`, `:`, `>` and `|`, with rounds from the states that are
`ok`. -/
def scopeSystem (N : Native ω) (ok : Config ω → Prop) : System (Config ω) where
  init c := ∃ w code ts stack heap, tokenize code = some ts ∧ [60] ∉ wordsList ts ∧
    runProgStack w ts stack heap = some c
  step c c' := ok c ∧ ∃ n, step N c n = some c'

/-- What holds of the store and the frames of every state. -/
structure Inv (c : Config ω) : Prop where
  plain : Plain c.store
  bound : Bound c.store
  ends : ∀ f, Ends (Up c.store) f
  self : ∀ fr ∈ c.frames, nsOf c.store fr.self ≠ none ∧ fr.state ≠ .ccf

/-- One namespace is changed or added, and its `sup` leads to no function that leads back. -/
lemma relink {x : ℕ} {ns : Ns} (hb : Bound s) (he : ∀ f, Ends (Up s) f) (ha : Atoms s s')
    (hs : nsOf s' = Function.update (nsOf s) x (some ns))
    (hx : nsOf s x = none → x = s.length + 1)
    (hval : ∀ p, ns sup = some p → deref s p ≠ none)
    (hback : ∀ p, ns sup = some p → ¬ ReflTransGen (Up s) p x) :
    Bound s' ∧ ∀ f, Ends (Up s') f := by
  have hfn : ∀ g, deref s g ≠ none → nsOf s' g ≠ none → nsOf s g ≠ none := by
    intro g hg hg' h0
    have hgx : g ≠ x := by
      rintro rfl
      exact hg (hx h0 ▸ deref_fresh s)
    rw [hs, Function.update_of_ne hgx] at hg'
    exact hg' h0
  constructor
  · intro f ns' p hf hp
    by_cases hfx : f = x
    · rw [hs, hfx, Function.update_self] at hf
      cases hf
      exact ha.deref (hval p hp)
    · rw [hs, Function.update_of_ne hfx] at hf
      exact ha.deref (hb f ns' p hf hp)
  · refine ends_relink (x := x) (fun f g hne hup => ?_) (fun g hup => ?_) he
    · obtain ⟨ns', h1, h2, h3⟩ := hup
      rw [hs, Function.update_of_ne hne] at h1
      exact ⟨ns', h1, h2, hfn g (hb f ns' g h1 h2) h3⟩
    · obtain ⟨ns', h1, h2, -⟩ := hup
      rw [hs, Function.update_self] at h1
      cases h1
      exact hback g h2

lemma not_reaches_fresh {p : ℕ} (hp : deref s p ≠ none) :
    ¬ ReflTransGen (Up s) p (s.length + 1) := by
  intro h
  rcases h.cases_tail with rfl | ⟨g, -, ns, -, -, h1⟩
  · exact hp (deref_fresh s)
  · rw [nsOf, deref_fresh] at h1
    exact h1 rfl

lemma self_update {x : ℕ} {ns : Ns} {fs : List Frame}
    (hs : nsOf s' = Function.update (nsOf s) x (some ns))
    (h : ∀ fr ∈ fs, nsOf s fr.self ≠ none ∧ fr.state ≠ .ccf) :
    ∀ fr ∈ fs, nsOf s' fr.self ≠ none ∧ fr.state ≠ .ccf := by
  refine fun fr hmem => ⟨?_, (h fr hmem).2⟩
  rw [hs, Function.update_apply]
  split_ifs
  · simp
  · exact (h fr hmem).1

/-- **A round** that closes no circle keeps the invariant. -/
lemma inv_step {n : ℕ} (h : Inv c) (hok : ¬ Closes c) (hstep : step N c n = some c') : Inv c' := by
  obtain ⟨fr, rest, hfr, ⟨hrun, -⟩ | ⟨hat, hmove⟩⟩ := step_cases hstep
  · rcases hrun with h1 | ⟨-, f, xs, ws, -, h1⟩
    · exact absurd h1 (h.self fr (by simp [hfr])).2
    · exact absurd h1 (h.plain.bcode f ws)
  have hrest : ∀ f ∈ rest, nsOf c.store f.self ≠ none ∧ f.state ≠ .ccf :=
    fun f hf => h.self f (by simp [hfr, hf])
  have hplain := h.plain.atoms hat
  cases hmove with
  | quiet hret hnf hq hcall =>
    obtain ⟨hs, fs, hf, hfs⟩ := hq
    refine ⟨hplain, fun f ns p h1 h2 => ?_, ?_, fun f hmem => ?_⟩
    · exact hat.deref (h.bound f ns p (by rwa [← hs]) h2)
    · have hup : Up c'.store = Up c.store := by
        ext f g
        rw [Up, Up, hs]
      exact hup ▸ h.ends
    · rw [hs]
      rw [hf] at hmem
      rcases List.mem_append.mp hmem with hmem | hmem
      · obtain ⟨h1, -, h2⟩ := hfs f hmem
        refine ⟨h1 ▸ (h.self fr (by simp [hfr])).1, fun h3 => ?_⟩
        obtain ⟨r, hr⟩ := h2 h3
        exact h.plain.comp r hr
      · exact hrest f hmem
  | call ns tmpNs exp names xs hc hsup hval hf hs =>
    obtain ⟨h1, h2⟩ := relink h.bound h.ends hat hs (fun _ => rfl) hval fun p hp =>
      not_reaches_fresh (hval p hp)
    refine ⟨hplain, h1, h2, ?_⟩
    rw [hf, List.forall_mem_cons, List.forall_mem_cons]
    refine ⟨⟨by simp [hs], by simp⟩, ⟨?_, by simp⟩, self_update hs hrest⟩
    exact (self_update hs h.self fr (by simp [hfr])).1
  | ret ns p hst hns hp hf hs =>
    have hself := hrest
    rcases hs with hs | hs
    · refine ⟨hplain, fun f ns p h1 h2 => hat.deref (h.bound f ns p (by rwa [← hs]) h2), ?_, ?_⟩
      · have hup : Up c'.store = Up c.store := by
          ext f g
          rw [Up, Up, hs]
        exact hup ▸ h.ends
      · rw [hf, hs]
        exact hrest
    · obtain ⟨h1, h2⟩ := relink h.bound h.ends hat hs (fun h0 => by simp [hns] at h0)
        (by simp [setRemoveStrKey]) (by simp [setRemoveStrKey])
      exact ⟨hplain, h1, h2, hf ▸ self_update hs hrest⟩
  | define ns hst hns hself hf hs =>
    have hval : ∀ p, ns sup = some p → deref c.store p ≠ none := by simp [hns, hself]
    obtain ⟨h1, h2⟩ := relink h.bound h.ends hat hs (fun _ => rfl) hval fun p hp =>
      not_reaches_fresh (hval p hp)
    exact ⟨hplain, h1, h2, hf ▸ self_update hs hrest⟩
  | name ns key v k hst hns hkey hk hv hval hf hs =>
    have hsup : ∀ p, Function.update ns k (some v) sup = some p → k = sup ∧ p = v ∨ ns sup = some p := by
      intro p hp
      by_cases hks : k = sup
      · subst hks
        rw [Function.update_self] at hp
        exact .inl ⟨rfl, (Option.some.inj hp).symm⟩
      · rw [Function.update_of_ne (Ne.symm hks)] at hp
        exact .inr hp
    have hback : ∀ p, Function.update ns k (some v) sup = some p →
        ¬ ReflTransGen (Up c.store) p fr.self := by
      intro p hp hreach
      rcases hsup p hp with ⟨rfl, rfl⟩ | hp
      · exact hok ⟨fr, rest, key, p, hfr, hst, hkey, hk, hv, hreach⟩
      · have hpf : nsOf c.store p ≠ none := by
          rcases hreach.cases_head with rfl | ⟨g, ⟨ns', h1, -⟩, -⟩
          · simp [hns]
          · simp [h1]
        exact (h.ends fr.self).not_back ⟨ns, hns, hp, hpf⟩ hreach
    have hval' : ∀ p, Function.update ns k (some v) sup = some p → deref c.store p ≠ none := by
      intro p hp
      rcases hsup p hp with ⟨-, rfl⟩ | hp
      · exact hval
      · exact h.bound fr.self ns p hns hp
    obtain ⟨h1, h2⟩ := relink h.bound h.ends hat hs (fun h0 => by simp [hns] at h0) hval' hback
    exact ⟨hplain, h1, h2, hf ▸ self_update hs hrest⟩

/-- At first there is the main function, in which nothing is bound. -/
lemma inv_init {w : ω} {ts : List Tree} {stack heap : ℕ} (hts : [60] ∉ wordsList ts)
    (h : runProgStack w ts stack heap = some c) : Inv c := by
  obtain ⟨s, args, exp, x, hs, hc, expr, hf⟩ := runProgStack_spec h
  have hp₀ : Plain [] := by
    constructor <;> intro r <;> cases r <;> simp [keyOf, deref]
  have hp₁ : Plain s := by
    rw [hs]
    exact plain_load _ (plain_load _ hp₀ hts) (by simp [words, wordsList])
  have hns : nsOf c.store = Function.update (nsOf s) (s.length + 1) (some fun _ => none) := by
    rw [hc, nsOf_alloc (by simp), nsOf_alloc (by simp), nsOf_alloc (by simp), nsOf_alloc_fn]
  have hs₀ : nsOf s = fun _ => none := by
    rw [hs, nsOf_load, nsOf_load]
    ext1 r
    cases r <;> rfl
  have hup : ∀ f ns, nsOf c.store f = some ns → ns = fun _ => none := by
    intro f ns hf
    rw [hns, hs₀, Function.update_apply] at hf
    split_ifs at hf
    exact (Option.some.inj hf).symm
  refine ⟨?_, fun f ns p h1 h2 => ?_, fun f => .intro fun g hg => ?_, fun fr hfr => ?_⟩
  · rw [hc]
    have hp₂ := hp₁.atoms (atoms_alloc (o := .fn (fun _ => none) args exp) (.inr ⟨_, _, _, rfl⟩))
    have hp₃ := (hp₂.alloc (o := .num [stack, 0]) (by simp [Obj.key]) (by simp)).alloc
      (o := .num [heap, 0]) (by simp [Obj.key]) (by simp)
    exact hp₃.atoms (atoms_alloc (.inl ⟨_, rfl⟩))
  · simp [hup f ns h1] at h2
  · obtain ⟨ns, h1, h2, -⟩ := hg
    simp [hup f ns h1] at h2
  · rw [hf, List.mem_singleton] at hfr
    simp [hfr, hns]

/-- **Lookup** ends and is lexical, as long as no round closes a circle. -/
theorem get_val_lexical (hc : (scopeSystem N fun c => ¬ Closes c).Reachable c) {fr : Frame}
    (hfr : fr ∈ c.frames) {obj : ℕ} {k : Key} (hk : keyOf c.store obj = some k) :
    ∃ l, Chain c.store fr.self l ∧ ∀ n, l.length ≤ n →
      getVal n c.store obj fr.self =
        some ((nearest c.store k l).getD (if k = slf then fr.self else 0)) := by
  have hI : (scopeSystem N fun c => ¬ Closes c).Invariant Inv := by
    constructor
    · rintro c ⟨w, code, ts, stack, heap, -, hts, h⟩
      exact inv_init hts h
    · rintro c c' h ⟨hok, n, hstep⟩
      exact inv_step h hok hstep
  have h := hI.reachable hc
  obtain ⟨l, hl⟩ := exists_chain (h.ends fr.self)
  refine ⟨l, hl, fun n hn => ?_⟩
  obtain ⟨ns, hns⟩ := Option.ne_none_iff_exists'.mp (h.self fr hfr).1
  obtain ⟨args, exp, hd⟩ := deref_of_nsOf hns
  simp only [getVal, hd, hk, Option.bind_some, getValLoop_chain h.bound hl hns n hn]
  cases nearest c.store k l <;> rfl

lemma reachable_rounds {n m : ℕ} (hc : (scopeSystem N fun _ => True).Reachable c)
    (h : rounds N n m c = some c') : (scopeSystem N fun _ => True).Reachable c' := by
  induction m generalizing c with
  | zero =>
    cases h
    exact hc
  | succ m ih =>
    obtain ⟨c₁, h1, h2⟩ := Option.bind_eq_some_iff.mp h
    exact ih (hc.step ⟨trivial, n, h1⟩) h2

/-- A state of the program `|>[sup :self] :x`: `x` is searched for on a circle. -/
lemma exists_circle : ∃ c fr rest, (scopeSystem noNative fun _ => True).Reachable c ∧
    c.frames = fr :: rest ∧ fr.state = .cf ∧ ∀ n, getVal n c.store fr.exp fr.self = none := by
  have htok : tokenize [124, 62, 91, 115, 117, 112, 32, 58, 115, 101, 108, 102, 93, 32, 58, 120] =
    some [.str [124], .str [62], .arr [.str [115, 117, 112], .str [58], .str [115, 101, 108, 102]],
      .str [58], .str [120]] := rfl
  obtain ⟨c, h0, c', h1, hfr, ns, args, hself, hx, hsup, hnx⟩ : ∃ c, runProgStack () [.str [124],
      .str [62], .arr [.str [115, 117, 112], .str [58], .str [115, 101, 108, 102]], .str [58],
      .str [120]] 0 0 = some c ∧ ∃ c', rounds noNative 1 10 c = some c' ∧
      c'.frames.head? = some { self := 17, exp := 8, state := .cf } ∧
      ∃ ns args, deref c'.store 17 = some (.fn ns args 9) ∧
        keyOf c'.store 8 = some (.words [120]) ∧ ns sup = some 17 ∧ ns (.words [120]) = none :=
    ⟨_, rfl, _, rfl, rfl, _, _, rfl, rfl, rfl, rfl⟩
  obtain ⟨rest, hrest⟩ := List.head?_eq_some_iff.mp hfr
  have hreach := reachable_rounds (.init ⟨(), _, _, 0, 0, htok, by decide, h0⟩) h1
  refine ⟨c', _, rest, hreach, hrest, rfl, fun n => ?_⟩
  simp [getVal, hself, hx, getValLoop_circle (nsOf_fn hself) hsup hnx]

/-- Not every lookup ends. -/
theorem get_val_diverges : ¬ ∀ (c : Config Unit) (fr : Frame) (rest : List Frame),
    (scopeSystem noNative fun _ => True).Reachable c → c.frames = fr :: rest → fr.state = .cf →
    ∃ n, (getVal n c.store fr.exp fr.self).isSome := by
  intro h
  obtain ⟨c, fr, rest, h1, h2, h3, h4⟩ := exists_circle
  obtain ⟨n, hn⟩ := h c fr rest h1 h2 h3
  simp [h4] at hn

lemma Chain.unique {f : ℕ} {l l' : List ℕ} (h : Chain s f l) (h' : Chain s f l') : l' = l := by
  induction h generalizing l' with
  | last h =>
    cases h' with
    | last => rfl
    | cons h1 => exact absurd h1 (h _)
  | cons h hl ih =>
    cases h' with
    | last h1 => exact absurd h (h1 _)
    | cons h1 hl1 =>
      obtain rfl := h.unique h1
      rw [ih hl1]

/-- The next round does not bind `sup` with `|`. -/
def keepsSup (c : Config ω) : Bool :=
  match c.frames with
  | [] => true
  | fr :: _ => fr.state ≠ .nf || (objArrayIdx c.store fr.exp 0).bind (keyOf c.store) ≠ some sup

lemma not_closes (h : keepsSup c) : ¬ Closes c := by
  rintro ⟨fr, rest, key, v, hfr, hst, hkey, hk, -⟩
  simp [keepsSup, hfr, hst, hkey, hk] at h

/-- Rounds that do not bind `sup`. -/
def quietRounds (N : Native ω) (n : ℕ) : ℕ → Config ω → Option (Config ω)
  | 0, c => some c
  | m + 1, c => if keepsSup c then (step N c n).bind (quietRounds N n m) else none

lemma reachable_quietRounds {n m : ℕ} (hc : (scopeSystem N fun c => ¬ Closes c).Reachable c)
    (h : quietRounds N n m c = some c') : (scopeSystem N fun c => ¬ Closes c).Reachable c' := by
  induction m generalizing c with
  | zero =>
    cases h
    exact hc
  | succ m ih =>
    rw [quietRounds] at h
    split_ifs at h with hk
    obtain ⟨c₁, h1, h2⟩ := Option.bind_eq_some_iff.mp h
    exact ih (hc.step ⟨not_closes hk, n, h1⟩) h2

/-- The program `|[x 7] :>[~[[] [:x]]]`, where `x` is looked up in the function that it defines and
calls: the binding is the one in the function around it. -/
theorem get_val_lexical_two : ∃ (c : Config Unit) (fr : Frame) (f g v : ℕ),
    (scopeSystem noNative fun c => ¬ Closes c).Reachable c ∧ fr ∈ c.frames ∧ fr.self = f ∧
    Chain c.store f [f, g] ∧ keyOf c.store fr.exp = some (.words [120]) ∧
    deref c.store v = some (.num [7, 0]) ∧ ∀ n, 2 ≤ n → getVal n c.store fr.exp f = some v := by
  have htok : tokenize [124, 91, 120, 32, 55, 93, 32, 58, 62, 91, 126, 91, 91, 93, 32, 91, 58, 120,
    93, 93, 93] = some [.str [124], .arr [.str [120], .num [7, 0]], .str [58], .str [62],
      .arr [.str [126], .arr [.arr [], .arr [.str [58], .str [120]]]]] := rfl
  obtain ⟨c₀, h0, c, h1, hfr, ns, args, hns, ns', args', hns', hx, hv, hsup, hsup', hf, hg⟩ :
      ∃ c₀, runProgStack () [.str [124], .arr [.str [120], .num [7, 0]], .str [58], .str [62],
        .arr [.str [126], .arr [.arr [], .arr [.str [58], .str [120]]]]] 0 0 = some c₀ ∧
      ∃ c, quietRounds noNative 1 11 c₀ = some c ∧
      c.frames.head? = some { self := 26, exp := 10, state := .cf } ∧
      ∃ ns args, deref c.store 26 = some (.fn ns args 11) ∧
      ∃ ns' args', deref c.store 22 = some (.fn ns' args' 14) ∧
      keyOf c.store 10 = some (.words [120]) ∧ deref c.store 3 = some (.num [7, 0]) ∧
      ns sup = some 22 ∧ ns' sup = none ∧ ns (.words [120]) = none ∧
      ns' (.words [120]) = some 3 :=
    ⟨_, rfl, _, rfl, rfl, _, _, rfl, _, _, rfl, rfl, rfl, rfl, rfl, rfl, rfl⟩
  have hc : (scopeSystem noNative fun c => ¬ Closes c).Reachable c :=
    reachable_quietRounds (.init ⟨(), _, _, 0, 0, htok, by decide, h0⟩) h1
  have hmem := List.mem_of_mem_head? hfr
  have hup : Up c.store 26 22 := ⟨ns, nsOf_fn hns, hsup, by simp [nsOf_fn hns']⟩
  have hlast : ∀ k, ¬ Up c.store 22 k := by
    rintro k ⟨ns₁, h2, h3, -⟩
    cases (nsOf_fn hns').symm.trans h2
    exact Option.some_ne_none _ (h3.symm.trans hsup')
  have hchain : Chain c.store 26 [26, 22] := .cons hup (.last hlast)
  obtain ⟨l, hl, hget⟩ := get_val_lexical hc hmem hx
  obtain rfl := hl.unique hchain
  refine ⟨c, _, 26, 22, 3, hc, hmem, rfl, hchain, hx, hv, fun n hn => ?_⟩
  rw [hget n hn]
  simp [nearest, nsOf_fn hns, nsOf_fn hns', hf, hg]

end LispMachine.Scope
