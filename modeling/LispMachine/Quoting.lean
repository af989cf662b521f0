import LispMachine.Elements
import LispMachine.ReaderRound

/-!
Quoted strings in a program.

The reader drops the quotes, and the evaluator looks an object up in the set of the operators by
its words: a quoted string that spells an operator is one. The lists of a program stay in the store
as they were read, which is how a place in the text is followed to the round that evaluates it.
-/

namespace LispMachine.Quoting

open LispMachine.Lib.Run LispMachine.Reader LispMachine.ReaderRound LispMachine.Interp
open LispMachine.InterpStep LispMachine.Elements

variable {ω : Type} {N : Native ω} {s s' : Store} {c c' : Config ω} {fr : Frame}
variable {rest : List Frame} {a b i j k m n r x : ℕ} {path xs : List ℕ}
variable {ts us : List Token} {q p : List Tree}

/-! ### Places in a program -/

/-- The list of tokens at a place. -/
def listAt : List Token → List ℕ → Option (List Token)
  | ts, [] => some ts
  | ts, k :: path =>
    match ts[k]? with
    | some (.list us) => listAt us path
    | _ => none

/-- The list of objects at a place. -/
def treeAt : List Tree → List ℕ → Option (List Tree)
  | q, [] => some q
  | q, k :: path =>
    match q[k]? with
    | some (.arr p) => treeAt p path
    | _ => none

/-- The array at a place. -/
def refAt (s : Store) : ℕ → List ℕ → Option ℕ
  | a, [] => some a
  | a, k :: path => (objArrayIdx s a k).bind fun b => refAt s b path

lemma Reads.get (h : Reads ts q) {t : Token} (hk : ts[k]? = some t) :
    ∃ u, q[k]? = some u ∧ Reads [t] [u] := by
  induction h generalizing k with
  | nil => simp at hk
  | op h ih => cases k with
    | zero => obtain rfl := Option.some.inj hk; exact ⟨_, rfl, .op .nil⟩
    | succ k => exact ih hk
  | name h ih => cases k with
    | zero => obtain rfl := Option.some.inj hk; exact ⟨_, rfl, .name .nil⟩
    | succ k => exact ih hk
  | numeral hn h ih => cases k with
    | zero => obtain rfl := Option.some.inj hk; exact ⟨_, rfl, .numeral hn .nil⟩
    | succ k => exact ih hk
  | quoted h ih => cases k with
    | zero => obtain rfl := Option.some.inj hk; exact ⟨_, rfl, .quoted .nil⟩
    | succ k => exact ih hk
  | list hp h _ ih => cases k with
    | zero => obtain rfl := Option.some.inj hk; exact ⟨_, rfl, .list hp .nil⟩
    | succ k => exact ih hk

lemma Reads.treeAt (h : Reads ts q) (hat : listAt ts path = some us) :
    ∃ p, treeAt q path = some p ∧ Reads us p := by
  induction path generalizing ts q with
  | nil =>
    obtain rfl := Option.some.inj hat
    exact ⟨q, rfl, h⟩
  | cons k path ih =>
    rw [listAt] at hat
    split at hat
    · rename_i us' hk
      obtain ⟨u, hu, hr⟩ := Reads.get h hk
      cases hr with
      | list hp _ =>
        obtain ⟨p, hp', hr'⟩ := ih hp hat
        exact ⟨p, by rw [Quoting.treeAt, hu]; exact hp', hr'⟩
    · cases hat

/-- What is known of a token in a text: an operator is one, and a list has a text of its own. -/
def Written : Token → Prop
  | .op o => o ∈ [126, 58, 62, 124, 60]
  | .list us => ∃ code, Renders us code
  | _ => True

lemma Renders.get {code : List ℕ} (h : Renders ts code) {t : Token} (hk : ts[k]? = some t) :
    Written t := by
  induction h generalizing k with
  | nil => simp at hk
  | ws hc h ih => exact ih hk
  | op hc h ih => cases k with
    | zero => obtain rfl := Option.some.inj hk; exact hc
    | succ k => exact ih hk
  | name hs h hr ih => cases k with
    | zero => obtain rfl := Option.some.inj hk; exact trivial
    | succ k => exact ih hk
  | numeral hs h0 h hr ih => cases k with
    | zero => obtain rfl := Option.some.inj hk; exact trivial
    | succ k => exact ih hk
  | quoted hs h ih => cases k with
    | zero => obtain rfl := Option.some.inj hk; exact trivial
    | succ k => exact ih hk
  | list hq h _ ih => cases k with
    | zero => obtain rfl := Option.some.inj hk; exact ⟨_, hq⟩
    | succ k => exact ih hk

lemma Renders.listAt {code : List ℕ} (h : Renders ts code) (hat : listAt ts path = some us) :
    ∃ code, Renders us code := by
  induction path generalizing ts code with
  | nil =>
    obtain rfl := Option.some.inj hat
    exact ⟨code, h⟩
  | cons k path ih =>
    rw [Quoting.listAt] at hat
    split at hat
    · rename_i us' hk
      obtain ⟨code', h'⟩ := Renders.get h hk
      exact ih h' hat
    · cases hat

/-! ### The program in the store -/

mutual
/-- The object `r`, and all that are in it, are the tree, and among the first `m` of the store. -/
def Loaded (m : ℕ) (s : Store) : Tree → ℕ → Prop
  | .str ws, r => r ≤ m ∧ deref s r = some (.str ws)
  | .num ws, r => r ≤ m ∧ deref s r = some (.num ws)
  | .arr ts, r => r ≤ m ∧ ∃ xs, deref s r = some (.arr (some xs)) ∧ LoadedList m s ts xs
def LoadedList (m : ℕ) (s : Store) : List Tree → List ℕ → Prop
  | [], [] => True
  | t :: ts, x :: xs => Loaded m s t x ∧ LoadedList m s ts xs
  | _, _ => False
end

/-- The store has not become smaller, and its first `m` objects are as they were. -/
structure Leaves (m : ℕ) (s s' : Store) : Prop where
  length_le : m ≤ s'.length
  deref : ∀ r ≤ m, deref s' r = deref s r

mutual
lemma Loaded.mono : ∀ (t : Tree) {r : ℕ}, m ≤ n → (∀ r ≤ m, deref s' r = deref s r) →
    Loaded m s t r → Loaded n s' t r
  | .str _, _, hmn, hs, ⟨h1, h2⟩ => ⟨h1.trans hmn, (hs _ h1).trans h2⟩
  | .num _, _, hmn, hs, ⟨h1, h2⟩ => ⟨h1.trans hmn, (hs _ h1).trans h2⟩
  | .arr ts, _, hmn, hs, ⟨h1, xs, h2, h3⟩ =>
    ⟨h1.trans hmn, xs, (hs _ h1).trans h2, LoadedList.mono ts hmn hs h3⟩
lemma LoadedList.mono : ∀ (ts : List Tree) {xs : List ℕ}, m ≤ n →
    (∀ r ≤ m, deref s' r = deref s r) → LoadedList m s ts xs → LoadedList n s' ts xs
  | [], [], _, _, _ => trivial
  | t :: ts, _ :: _, hmn, hs, ⟨h1, h2⟩ => ⟨Loaded.mono t hmn hs h1, LoadedList.mono ts hmn hs h2⟩
end

/-- The arrays of the store hold objects of the store. -/
def ArraysIn (s : Store) : Prop :=
  ∀ r xs, deref s r = some (.arr (some xs)) → ∀ x ∈ xs, x ≤ s.length

lemma arraysIn_alloc (hs : ArraysIn s) {o : Obj}
    (ho : ∀ xs, o = .arr (some xs) → ∀ x ∈ xs, x ≤ s.length) : ArraysIn (alloc s o).1 := by
  intro r xs hr x hx
  have hlen : (alloc s o).1.length = s.length + 1 := by simp [alloc]
  rw [deref_alloc] at hr
  split_ifs at hr
  · have := ho xs (Option.some.inj hr) x hx
    omega
  · have := hs r xs hr x hx
    omega

lemma leaves_alloc (h : Leaves m s s') (o : Obj) : Leaves m s (alloc s' o).1 := by
  have hlen := h.length_le
  refine ⟨by simp [alloc]; omega, fun r hr => ?_⟩
  rw [deref_alloc, if_neg (by omega), h.deref r hr]

/-- New objects stand behind the others. -/
structure Grows (s s' : Store) : Prop where
  leaves : Leaves s.length s s'
  arrays : ArraysIn s → ArraysIn s'

lemma Leaves.refl (s : Store) : Leaves s.length s s := ⟨le_rfl, fun _ _ => rfl⟩

lemma Leaves.trans {s'' : Store} (h : Leaves m s s') (h' : Leaves n s' s'') (hmn : m ≤ n) :
    Leaves m s s'' :=
  ⟨hmn.trans h'.length_le, fun r hr => (h'.deref r (hr.trans hmn)).trans (h.deref r hr)⟩

lemma LoadedList.le : ∀ {ts : List Tree} {xs : List ℕ}, LoadedList m s ts xs → ∀ x ∈ xs, x ≤ m
  | [], [], _, x, hx => by simp at hx
  | t :: ts, y :: ys, ⟨h1, h2⟩, x, hx => by
    rcases List.mem_cons.mp hx with rfl | hx
    · cases t with
      | str ws => exact h1.1
      | num ws => exact h1.1
      | arr ts => exact h1.1
    · exact LoadedList.le h2 x hx

mutual
/-- **The program** that is loaded is the tree. -/
lemma load_spec : ∀ (t : Tree) (s : Store),
    Grows s (load s t).1 ∧ Loaded (load s t).1.length (load s t).1 t (load s t).2
  | .str ws, s => ⟨⟨leaves_alloc (.refl s) _, fun h => arraysIn_alloc h (by simp)⟩,
      by simp [load, alloc], by simp [load, alloc, deref]⟩
  | .num ws, s => ⟨⟨leaves_alloc (.refl s) _, fun h => arraysIn_alloc h (by simp)⟩,
      by simp [load, alloc], by simp [load, alloc, deref]⟩
  | .arr ts, s => by
    obtain ⟨⟨h1, h2⟩, h3⟩ := loadList_spec ts s
    have h4 := leaves_alloc (.refl (loadList s ts).1) (.arr (some (loadList s ts).2))
    refine ⟨⟨h1.trans h4 h1.length_le, fun h => arraysIn_alloc (h2 h) ?_⟩, ?_⟩
    · rintro xs hxs x hx
      cases hxs
      exact h3.le x hx
    · exact ⟨by simp [load, alloc], _, by simp [load, alloc, deref],
        LoadedList.mono ts h4.length_le h4.deref h3⟩
lemma loadList_spec : ∀ (ts : List Tree) (s : Store), Grows s (loadList s ts).1 ∧
    LoadedList (loadList s ts).1.length (loadList s ts).1 ts (loadList s ts).2
  | [], s => ⟨⟨.refl s, id⟩, trivial⟩
  | t :: ts, s => by
    obtain ⟨⟨h1, h2⟩, h3⟩ := load_spec t s
    obtain ⟨⟨h4, h5⟩, h6⟩ := loadList_spec ts (load s t).1
    exact ⟨⟨h1.trans h4 h1.length_le, fun h => h5 (h2 h)⟩,
      Loaded.mono t h4.length_le h4.deref h3, h6⟩
end

lemma LoadedList.get : ∀ {ts : List Tree} {xs : List ℕ} {k : ℕ} {t : Tree}, LoadedList m s ts xs →
    ts[k]? = some t → ∃ x, xs[k]? = some x ∧ Loaded m s t x
  | [], _, _, _, _, hk => by simp at hk
  | _ :: _, y :: _, 0, _, ⟨h1, _⟩, hk => by
    obtain rfl := Option.some.inj hk
    exact ⟨y, rfl, h1⟩
  | _ :: ts, _ :: _, k + 1, _, ⟨_, h2⟩, hk => LoadedList.get (k := k) h2 hk

/-- The array at a place of the program. -/
lemma Loaded.refAt (h : Loaded m s (.arr q) a) (hat : treeAt q path = some p) :
    ∃ b xs, refAt s a path = some b ∧ elems s b = some xs ∧ LoadedList m s p xs := by
  induction path generalizing q a with
  | nil =>
    obtain ⟨-, xs, h1, h2⟩ := h
    obtain rfl := Option.some.inj hat
    exact ⟨a, xs, rfl, by rw [elems, h1], h2⟩
  | cons k path ih =>
    obtain ⟨-, xs, h1, h2⟩ := h
    rw [treeAt] at hat
    split at hat
    · rename_i p' hk
      obtain ⟨x, hx, hload⟩ := LoadedList.get h2 hk
      obtain ⟨b, ys, h3, h4, h5⟩ := ih hload hat
      refine ⟨b, ys, ?_, h4, h5⟩
      rw [Quoting.refAt, objArrayIdx, elems, h1]
      simpa [hx] using h3
    · cases hat

/-! ### The runs -/

/-- The store of a program, and its list in it. -/
def program (q : List Tree) : Store × ℕ := load [] (.arr q)

/-- The number of objects of a program. -/
def size (q : List Tree) : ℕ := (program q).1.length

/-- The runs of a program, in which the assembler and bytecode leave its objects alone. -/
def programSystem (N : Native ω) (q : List Tree) : System (Config ω) where
  init c := ∃ w stack heap, runProgStack w q stack heap = some c
  step c c' := (∃ n, step N c n = some c') ∧ ∀ fr rest, c.frames = fr :: rest →
    Runs c.store fr → Leaves (size q) c.store c'.store

/-- The frame below one that is not of a list waits for the value of an operator; else it may be
that of a call. -/
def Above (f g : Frame) : Prop := g.state = .ef1 ∨ g.state = .cfRet ∧ Evaluates f

/-- The frame at the top, or the one below it, takes its result from the list that is returned. -/
def Returning (fr : Frame) (rest : List Frame) : Prop :=
  fr.state = .cfRet ∨ fr.state = .ef ∧ ∃ g ∈ rest.head?, g.state = .cfRet

/-- The program stands in the store, and what is written is behind it. -/
structure Stands (q : List Tree) (c : Config ω) : Prop where
  leaves : Leaves (size q) (program q).1 c.store
  values : ∀ f ∈ c.frames, f.state = .ef0 ∨ f.state = .ef1 → size q < f.tmp
  above : c.frames.IsChain Above
  ret : ∀ fr rest, c.frames = fr :: rest → Returning fr rest →
    c.ret = 0 ∨ size q < c.ret
  call : ∀ fr rest, c.frames = fr :: rest → fr.state = .cf → c.ret = 0 ∨ c.ret = fr.exp

lemma nsOf_program (q : List Tree) : nsOf (program q).1 = fun _ => none := by
  rw [program, nsOf_load]
  ext1 r
  cases r <;> rfl

lemma arraysIn_program (q : List Tree) : ArraysIn (program q).1 := by
  refine (load_spec (.arr q) []).1.arrays fun r xs hr => ?_
  cases r <;> cases hr

/-- The functions are behind the program. -/
lemma Stands.lt_of_nsOf (h : Stands q c) (hr : nsOf c.store r ≠ none) : size q < r := by
  by_contra hle
  refine hr ?_
  rw [nsOf, h.leaves.deref r (not_lt.mp hle), ← nsOf, nsOf_program]

/-- So are lists that hold a function. -/
lemma Stands.lt_of_call (h : Stands q c) (hel : elems c.store a = some (x :: xs))
    (hx : nsOf c.store x ≠ none) : size q < a := by
  by_contra hle
  have hd := elems_eq hel
  rw [h.leaves.deref a (not_lt.mp hle)] at hd
  have h1 : x ≤ size q := arraysIn_program q a _ hd x List.mem_cons_self
  have h2 := h.lt_of_nsOf hx
  omega

lemma Stands.lt_results (h : Stands q c) (hfr : c.frames = fr :: rest) (hev : Evaluates fr) :
    size q < results c fr := by
  have hlen := h.leaves.length_le
  unfold results
  split_ifs with hst
  · omega
  · exact h.values fr (by rw [hfr]; exact List.mem_cons_self) (hev.resolve_left hst)

/-- What a round writes is behind the program. -/
lemma Stands.kept (h : Stands q c) (hfr : c.frames = fr :: rest) (hk : Kept c fr s') :
    Leaves (size q) (program q).1 s' := by
  have hlen := h.leaves.length_le
  refine ⟨hlen.trans hk.length_le, fun r hr => ?_⟩
  cases r with
  | zero => rfl
  | succ r =>
    rw [← h.leaves.deref _ hr]
    refine hk.deref _ (hr.trans hlen) ?_ (fun hev heq => ?_) fun hst heq => ?_
    · rw [nsOf, h.leaves.deref _ hr, ← nsOf, nsOf_program]
    · have := h.lt_results hfr hev
      omega
    · have := h.ret fr rest hfr (.inl hst)
      omega

lemma opState_ne_ef1 (k : Key) : opState k ≠ some .ef1 := by
  unfold opState
  split <;> simp

/-- A round keeps the invariant. -/
lemma inv_step (h : Stands q c) (hs : step N c n = some c')
    (hkeep : ∀ fr rest, c.frames = fr :: rest → Runs c.store fr →
      Leaves (size q) c.store c'.store) : Stands q c' := by
  obtain ⟨fr, rest, hfr, hstore, hturn⟩ := step_turn hs
  have hprog : Leaves (size q) (program q).1 c'.store := by
    rcases hstore with hrun | hk
    · exact h.leaves.trans (hkeep fr rest hfr hrun) le_rfl
    · exact h.kept hfr hk
  have hchain : (fr :: rest).IsChain Above := hfr ▸ h.above
  have hvalues : ∀ f ∈ rest, f.state = .ef0 ∨ f.state = .ef1 → size q < f.tmp :=
    fun f hf => h.values f (by rw [hfr]; exact List.mem_cons_of_mem _ hf)
  obtain ⟨hhead, htail⟩ := List.isChain_cons.mp hchain
  have hrest : ∀ {g : Frame} {rest' : List Frame}, rest = g :: rest' → Above fr g := fun hr =>
    hhead _ (by rw [hr]; rfl)
  cases hturn with
  | pop hf hret =>
    refine ⟨hprog, hf ▸ hvalues, hf ▸ htail, fun g rest' hg hr => ?_, fun g rest' hg hst => ?_⟩
    · rw [hf] at hg
      rcases hrest hg with hst | ⟨hst, hev⟩
      · rcases hr with hr | ⟨hr, -⟩ <;> exact absurd (hst.symm.trans hr) (by decide)
      · rcases hret hev with ⟨hef, hret⟩ | hret
        · rw [hret]
          exact h.ret fr rest hfr (.inr ⟨hef, g, by rw [hg]; rfl, hst⟩)
        · exact .inr (hret ▸ h.lt_results hfr hev)
    · rw [hf] at hg
      rcases hrest hg with hst' | ⟨hst', -⟩ <;> exact absurd (hst'.symm.trans hst) (by decide)
  | call f g hst hf hf' hg hret hfn =>
    obtain ⟨x, xs, hel, hx⟩ := hfn
    refine ⟨hprog, ?_, hf ▸ ?_, fun f' rest' hf₁ _ => ?_, fun f' rest' hf₁ hst' => ?_⟩
    · rw [hf, List.forall_mem_cons, List.forall_mem_cons]
      exact ⟨by simp [hf'], by simp [hg], hvalues⟩
    · refine List.isChain_cons.mpr ⟨?_, List.isChain_cons.mpr ⟨fun g' hg' => ?_, htail⟩⟩
      · rintro g' ⟨⟩
        exact .inr ⟨hg, .inl hf'⟩
      · refine (hhead g' hg').imp_right fun h1 => ?_
        simp [Evaluates, hst] at h1
    · rw [hret]
      refine (h.call fr rest hfr hst).imp_right fun h1 => ?_
      rw [h1]
      exact h.lt_of_call hel hx
    · cases hf.symm.trans hf₁
      exact absurd (hf'.symm.trans hst') (by decide)
  | operate f g hst hf hop hexp hg htmp =>
    obtain ⟨k, hk⟩ := hop
    refine ⟨hprog, ?_, hf ▸ ?_, fun f' rest' hf₁ hr => ?_, fun f' rest' hf₁ _ => ?_⟩
    · rw [hf, List.forall_mem_cons, List.forall_mem_cons]
      refine ⟨?_, fun _ => htmp ▸ h.lt_results hfr hst, hvalues⟩
      rintro (h1 | h1)
      · exact absurd (h1 ▸ hk) (opState_ne_ef0 k)
      · exact absurd (h1 ▸ hk) (opState_ne_ef1 k)
    · refine List.isChain_cons.mpr ⟨?_, List.isChain_cons.mpr ⟨fun g' hg' => ?_, htail⟩⟩
      · rintro g' ⟨⟩
        exact .inl hg
      · exact (hhead g' hg').imp_right fun h1 => ⟨h1.1, .inr (.inr hg)⟩
    · cases hf.symm.trans hf₁
      rcases hr with h1 | ⟨-, g', hg', h1⟩
      · exact absurd (h1 ▸ hk) (opState_ne_cfRet k)
      · obtain rfl := Option.some.inj hg'
        exact absurd (hg.symm.trans h1) (by decide)
    · cases hf.symm.trans hf₁
      exact .inr hexp.symm
  | next f hst hf hf' hstk htmp hi =>
    refine ⟨hprog, ?_, hf ▸ ?_, fun f' rest' hf₁ hr => ?_, fun f' rest' hf₁ hst' => ?_⟩
    · rw [hf, List.forall_mem_cons]
      exact ⟨fun _ => htmp ▸ h.lt_results hfr hst, hvalues⟩
    · refine List.isChain_cons.mpr ⟨fun g' hg' => ?_, htail⟩
      exact (hhead g' hg').imp_right fun h1 => ⟨h1.1, .inr (.inl hf')⟩
    · cases hf.symm.trans hf₁
      rcases hr with h1 | ⟨h1, -⟩ <;> exact absurd (hf'.symm.trans h1) (by decide)
    · cases hf.symm.trans hf₁
      exact absurd (hf'.symm.trans hst') (by decide)

lemma inv_init {w : ω} {stack heap : ℕ} (h : runProgStack w q stack heap = some c) :
    Stands q c := by
  obtain ⟨s, args, exp, y, hs, hc, expr, hf⟩ := runProgStack_spec h
  have hret : c.ret = 0 := by
    obtain ⟨_, -, rfl⟩ := Option.map_eq_some_iff.mp h
    rfl
  have h0 : Leaves (size q) (program q).1 s := by
    rw [hs]
    exact (load_spec _ _).1.leaves
  refine ⟨hc ▸ leaves_alloc (leaves_alloc (leaves_alloc (leaves_alloc h0 _) _) _) _, ?_, ?_,
    fun _ _ _ _ => .inl hret, fun _ _ _ _ => .inl hret⟩
  · rw [hf]
    simp
  · rw [hf]
    exact .singleton _

lemma stands (hc : (programSystem N q).Reachable c) : Stands q c := by
  have hI : (programSystem N q).Invariant (Stands q) := by
    constructor
    · rintro c ⟨w, stack, heap, h⟩
      exact inv_init h
    · rintro c c' h ⟨⟨n, hs⟩, hkeep⟩
      exact inv_step h hs hkeep
  exact hI.reachable hc

/-! ### Quoted strings -/

/-- The operators of the evaluator. -/
def operators : List (List ℕ) := [[126], [58], [62], [60], [124]]

lemma opState_words (ws : List ℕ) : (opState (.words ws)).isSome ↔ ws ∈ operators := by
  unfold opState operators
  split <;> simp_all

/-- The frame at the top is at the list at a place of the program, and comes to its token `j`,
before which are the operators of the element only. -/
structure Comes (c : Config ω) (root : ℕ) (fr : Frame) (path : List ℕ) (us : List Token) (j : ℕ) :
    Prop where
  top : c.frames.head? = some fr
  list : refAt c.store root path = some fr.exp
  state : fr.state = .ef0 ∨ fr.state = .ef
  le : fr.i ≤ j
  ops : ∀ k, fr.i ≤ k → k < j → ∃ o, us[k]? = some (.op o)

/-- The loop over the operators finds the object `x` at the index `j`, behind those of `stk`. -/
def Finds (c : Config ω) (fr : Frame) (x j : ℕ) (stk : List ℕ) : Prop :=
  ∃ xs, elems c.store fr.exp = some xs ∧
    opLoop opState c.store (xs.drop fr.i) fr.i [] = some (x, j, stk)

/-- The loop ends at an object that is no operator. -/
lemma opLoop_of {ops : Key → Option Label} {ys : List ℕ} (i : ℕ) (stk : List ℕ)
    (h : ∀ y ∈ ys.take k, isOp ops s y) (hx : ys[k]? = some x) (hd : deref s x ≠ none)
    (hno : isOp ops s x = false) :
    opLoop ops s ys i stk = some (x, i + k, (ys.take k).reverse ++ stk) := by
  induction k generalizing ys i stk with
  | zero =>
    obtain ⟨ys', rfl⟩ : ∃ ys', ys = x :: ys' := by
      cases ys with
      | nil => simp at hx
      | cons y ys' => exact ⟨ys', by rw [Option.some.inj hx]⟩
    obtain ⟨o, ho⟩ := Option.ne_none_iff_exists'.mp hd
    have hkey : keyOf s x = some (o.key x) := by rw [keyOf, ho, Option.map_some]
    rw [isOp, hkey, Option.bind_some] at hno
    rw [opLoop, hkey, Option.bind_some, hno]
    rfl
  | succ k ih =>
    cases ys with
    | nil => simp at hx
    | cons y ys =>
      rw [List.take_succ_cons, List.forall_mem_cons] at h
      obtain ⟨hy, h⟩ := h
      have hrec := ih (i + 1) (y :: stk) h hx
      rw [isOp] at hy
      cases hkey : keyOf s y with
      | none => simp [hkey] at hy
      | some key =>
        rw [hkey, Option.bind_some] at hy
        rw [opLoop, hkey, Option.bind_some, if_pos hy, hrec, List.take_succ_cons,
          List.reverse_cons, List.append_assoc, show i + 1 + k = i + (k + 1) by omega]
        rfl

lemma isOp_str {ws : List ℕ} (hd : deref s x = some (.str ws)) :
    isOp opState s x = true ↔ ws ∈ operators := by
  rw [isOp, keyOf, hd, Option.map_some, Option.bind_some]
  exact opState_words ws

/-- The list that the frame evaluates is the one at its place in the program. -/
lemma Comes.loaded (hcome : Comes c (program q).2 fr path us j) (hc : Stands q c)
    (hq : Reads ts q) (hat : listAt ts path = some us) :
    ∃ p xs, Reads us p ∧ elems c.store fr.exp = some xs ∧ LoadedList (size q) c.store p xs := by
  obtain ⟨p, hp, hread⟩ := Reads.treeAt hq hat
  have hload : Loaded (size q) c.store (.arr q) (program q).2 :=
    Loaded.mono _ le_rfl hc.leaves.deref (load_spec (.arr q) []).2
  obtain ⟨b, xs, h1, h2, h3⟩ := Loaded.refAt hload hp
  obtain rfl := Option.some.inj (h1.symm.trans hcome.list)
  exact ⟨p, xs, hread, h2, h3⟩

/-- **A quoted string** is found as it is, unless it spells an operator. -/
lemma protected_iff {code ws : List ℕ} (hcode : Renders ts code) (hq : Reads ts q)
    (hc : Stands q c) (hat : listAt ts path = some us) (hs : us[j]? = some (.quoted ws))
    (hcome : Comes c (program q).2 fr path us j) :
    (∃ x stk, Finds c fr x j stk ∧ deref c.store x = some (.str ws)) ↔ ws ∉ operators := by
  obtain ⟨p, xs, hread, hel, hload⟩ := hcome.loaded hc hq hat
  obtain ⟨code', hcode'⟩ := Renders.listAt hcode hat
  constructor
  · rintro ⟨x, stk, ⟨xs', hel', hloop⟩, hd⟩ hmem
    obtain ⟨k, -, -, hno, -⟩ := opLoop_spec hloop
    exact absurd ((isOp_str hd).mpr hmem) (by simp [hno])
  · intro hmem
    obtain ⟨u, hu, hr⟩ := Reads.get hread hs
    cases hr
    obtain ⟨x, hx, -, hd⟩ := LoadedList.get hload hu
    have hno : isOp opState c.store x = false := by
      simpa using mt (isOp_str hd).mp hmem
    have hops : ∀ y ∈ (xs.drop fr.i).take (j - fr.i), isOp opState c.store y := by
      intro y hy
      obtain ⟨k, hk, rfl⟩ := List.mem_iff_getElem.mp hy
      rw [List.length_take, List.length_drop] at hk
      obtain ⟨o, ho⟩ := hcome.ops (fr.i + k) (by omega) (by omega)
      obtain ⟨u, hu, hr⟩ := Reads.get hread ho
      cases hr
      obtain ⟨y, hy, -, hdy⟩ := LoadedList.get hload hu
      have hlt : fr.i + k < xs.length := by omega
      rw [List.getElem_take, List.getElem_drop]
      rw [List.getElem?_eq_getElem hlt] at hy
      rw [Option.some.inj hy, isOp_str hdy]
      have hwritten : o ∈ [126, 58, 62, 124, 60] := Renders.get hcode' ho
      have hall : ∀ o ∈ [126, 58, 62, 124, 60], [o] ∈ operators := by decide
      exact hall o hwritten
    have hget : (xs.drop fr.i)[j - fr.i]? = some x := by
      rw [List.getElem?_drop, Nat.add_sub_cancel' hcome.le, hx]
    have hloop := opLoop_of fr.i [] hops hget (by simp [hd]) hno
    rw [Nat.add_sub_cancel' hcome.le] at hloop
    exact ⟨x, _, ⟨xs, hel, hloop⟩, hd⟩

/-- The values of the elements before, if their list is not lost. -/
def valuesOf (c : Config ω) (fr : Frame) : Option (List ℕ) :=
  if fr.state = .ef then some [] else elems c.store fr.tmp

/-- The value `x` is put behind those of the elements before, if their list is not lost. -/
structure Appends (c : Config ω) (fr : Frame) (x : ℕ) (c' : Config ω) : Prop where
  values : elems c'.store (results c fr) = (valuesOf c fr).map (· ++ [x])
  frames : c'.frames = c.frames.tail ∧ c'.ret = results c fr ∨
    ∃ f, c'.frames = f :: c.frames.tail ∧ f.exp = fr.exp ∧ f.tmp = results c fr ∧
      f.i = fr.i + 1 ∧ f.state = .ef0

/-- Where no operator is left, the value is appended. -/
lemma stepEf1_append {fr₁ : Frame} {w : List ℕ} (h : stepEf1 c fr₁ rest = some c')
    (hstk : fr₁.opStk = []) (hd : deref c.store c.ret = some (.str w)) :
    elems c'.store fr₁.tmp = (elems c.store fr₁.tmp).map (· ++ [c.ret]) ∧
      deref c'.store c.ret = some (.str w) ∧ (c'.frames = rest ∧ c'.ret = fr₁.tmp ∨
        ∃ f, c'.frames = f :: rest ∧ f.exp = fr₁.exp ∧ f.tmp = fr₁.tmp ∧ f.i = fr₁.i + 1 ∧
          f.state = .ef0) := by
  have hret : c.ret ≠ 0 := by
    rintro h0
    rw [h0] at hd
    cases hd
  unfold stepEf1 at h
  rw [hstk] at h
  obtain ⟨s, happ, h⟩ := Option.bind_eq_some_iff.mp h
  obtain ⟨vs, harr, rfl⟩ := objArrayAppend_iff.mp happ
  obtain ⟨size, -, h⟩ := Option.map_eq_some_iff.mp h
  have hvs : appended vs c.ret = vs.map (· ++ [c.ret]) := by
    cases vs with
    | none => rfl
    | some vs => exact if_neg hret
  rw [hvs] at h
  have hne : c.ret ≠ fr₁.tmp := by
    rintro heq
    rw [heq, harr] at hd
    cases hd
  have hel : elems (put c.store fr₁.tmp (.arr (vs.map (· ++ [c.ret])))) fr₁.tmp =
      (elems c.store fr₁.tmp).map (· ++ [c.ret]) := by
    rw [elems, elems, deref_put harr, if_pos rfl, harr]
  have hd' : deref (put c.store fr₁.tmp (.arr (vs.map (· ++ [c.ret])))) c.ret = some (.str w) := by
    rw [deref_put harr, if_neg hne, hd]
  split_ifs at h
  · cases h
    exact ⟨hel, hd', .inl ⟨rfl, rfl⟩⟩
  · cases h
    exact ⟨hel, hd', .inr ⟨_, rfl, rfl, rfl, rfl, rfl⟩⟩

/-- What is found at the place where the loop begins is the value of the element. -/
lemma finds_appends {w stk : List ℕ} (hI : Elements.Inv c) (htop : c.frames.head? = some fr)
    (hst : fr.state = .ef0 ∨ fr.state = .ef) (hf : Finds c fr x fr.i stk)
    (hd : deref c.store x = some (.str w)) (hs : step N c n = some c') :
    Appends c fr x c' ∧ deref c'.store x = some (.str w) := by
  obtain ⟨rest, hfr⟩ := List.head?_eq_some_iff.mp htop
  obtain ⟨xs, hel, hloop⟩ := hf
  obtain ⟨k, hk, hx, hno, -, hstk⟩ := opLoop_spec hloop
  obtain rfl : k = 0 := by omega
  rcases hst with hst | hst
  · have hopStk := (hI.top fr rest hfr hst).1
    have h : stepEf0 c fr rest = some c' := by simpa only [step, hfr, hst] using hs
    rw [stepEf0, hel, Option.bind_some, hopStk, hloop, Option.bind_some] at h
    obtain ⟨h1, h2, h3⟩ := stepEf1_append (c := { c with ret := x }) h hstk hd
    have hres : results c fr = fr.tmp := by rw [results, hst]; rfl
    have hvals : valuesOf c fr = elems c.store fr.tmp := if_neg (by simp [hst])
    refine ⟨⟨by rw [hres, hvals]; exact h1, ?_⟩, h2⟩
    rw [hres, hfr]
    exact h3
  · -- the list of the values is made first
    obtain ⟨s₁, hs₁⟩ : ∃ s₁, (alloc c.store (.arr (some []))).1 = s₁ := ⟨_, rfl⟩
    have hlt : fr.i < xs.length := by
      by_contra hle
      rw [List.drop_of_length_le (not_lt.mp hle)] at hx
      simp at hx
    have hold : ∀ {r o}, deref c.store r = some o → deref s₁ r = some o := fun {r o} hr => by
      rw [← hs₁, deref_alloc, if_neg, hr]
      rintro rfl
      rw [deref_fresh] at hr
      cases hr
    have hel₁ : elems s₁ fr.exp = some xs := by rw [elems, hold (elems_eq hel)]
    have hno₁ : isOp opState s₁ x = false := by rw [← hs₁, isOp_alloc, hno]
    have hnone : ∀ y ∈ (xs.drop fr.i).take 0, isOp opState s₁ y := by simp
    have hloop₁ := opLoop_of fr.i [] hnone hx (by rw [hold hd]; simp) hno₁
    have h : stepEf0 { c with store := s₁ }
        { fr with tmp := c.store.length + 1, opStk := [] } rest = some c' := by
      have htmp : (alloc c.store (.arr (some []))).2 = c.store.length + 1 := rfl
      simpa only [step, hfr, hst, stepEf, elems_eq hel, Option.bind_some,
        if_neg (not_le.mpr hlt), hs₁, htmp] using hs
    rw [stepEf0, hel₁, Option.bind_some, hloop₁, Option.bind_some] at h
    obtain ⟨h1, h2, h3⟩ := stepEf1_append
      (c := { c with store := s₁, ret := x }) h rfl (hold hd)
    have hnew : elems s₁ (c.store.length + 1) = some [] := by
      rw [elems, ← hs₁, deref_alloc, if_pos rfl]
    have hres : results c fr = c.store.length + 1 := by rw [results, hst]; rfl
    have hvals : valuesOf c fr = elems s₁ (c.store.length + 1) := by
      rw [hnew, valuesOf, if_pos hst]
    refine ⟨⟨by rw [hres, hvals]; exact h1, ?_⟩, h2⟩
    rw [hres, hfr]
    exact h3

lemma inv_reachable (hc : (programSystem N q).Reachable c) : Elements.Inv c := by
  have hI : (programSystem N q).Invariant Elements.Inv := by
    constructor
    · rintro c ⟨w, stack, heap, h⟩
      exact Elements.inv_init h
    · rintro c c' h ⟨⟨n, hs⟩, -⟩
      exact Elements.inv_step h hs
  exact hI.reachable hc

/-- **Quoting** protects every string but those of the operators: in every run of a program, where a
quoted string is an element it is its own value, and where operators stand before it they are
applied to it. -/
theorem quoted_protected_iff {code : List ℕ} (hcode : Renders ts code) : ∃ q,
    tokenize code = some q ∧ ∀ (ω : Type) (N : Native ω) (c : Config ω) (path : List ℕ)
      (us : List Token) (j : ℕ) (ws : List ℕ) (fr : Frame), (programSystem N q).Reachable c →
      listAt ts path = some us → us[j]? = some (.quoted ws) →
      Comes c (program q).2 fr path us j →
      ((∃ x stk, Finds c fr x j stk ∧ deref c.store x = some (.str ws)) ↔ ws ∉ operators) ∧
      (ws ∉ operators → fr.i = j → ∀ n c', step N c n = some c' →
        ∃ x, Appends c fr x c' ∧ deref c'.store x = some (.str ws)) := by
  obtain ⟨q, htok, hread⟩ := tokenize_renders hcode
  refine ⟨q, htok, fun ω N c path us j ws fr hc hat hj hcome => ?_⟩
  have hiff := protected_iff hcode hread (stands hc) hat hj hcome
  refine ⟨hiff, fun hmem hi n c' hs => ?_⟩
  obtain ⟨x, stk, hf, hd⟩ := hiff.mpr hmem
  subst hi
  exact ⟨x, finds_appends (inv_reachable hc) hcome.top hcome.state hf hd hs⟩

/-- The program of one quoted string comes to it in the first round. -/
lemma comes_quoted {ws : List ℕ} {c c' : Config Unit}
    (h0 : runProgStack () [.str ws] 0 0 = some c) (h1 : step noNative c 1 = some c')
    (h2 : c'.frames.head? = some { self := 10, exp := 2, state := .ef }) :
    (programSystem noNative [.str ws]).Reachable c' ∧ Comes c' (program [.str ws]).2
      { self := 10, exp := 2, state := .ef } [] [.quoted ws] 0 := by
  refine ⟨.step (.init ⟨(), 0, 0, h0⟩) ⟨⟨1, h1⟩, fun fr rest hfr hrun => ?_⟩, h2, rfl,
    .inr rfl, le_rfl, fun k _ hk => absurd hk (Nat.not_lt_zero k)⟩
  exact absurd ((step_noNative hfr hrun).symm.trans h1) (Option.some_ne_none _).symm

/-- The program `'a'`: the string is found, and is the first of the values. -/
theorem quoted_protected_a : ∃ c c' fr x stk, (programSystem noNative [.str [97]]).Reachable c ∧
    Finds c fr x 0 stk ∧ deref c.store x = some (.str [97]) ∧ step noNative c 1 = some c' ∧
    ∃ y, elems c'.store c'.ret = some [y] ∧ deref c'.store y = some (.str [97]) := by
  have hcode : Renders [.quoted [97]] [39, 97, 39] := .quoted (s := [97]) (by decide) .nil
  obtain ⟨c₀, h0, c, h1, h2, c', h3, h4⟩ : ∃ c₀, runProgStack () [.str [97]] 0 0 = some c₀ ∧
    ∃ c, step noNative c₀ 1 = some c ∧
      c.frames.head? = some { self := 10, exp := 2, state := .ef } ∧
      ∃ c', step noNative c 1 = some c' ∧ c'.ret = c.store.length + 1 :=
    ⟨_, rfl, _, rfl, rfl, _, rfl, rfl⟩
  obtain ⟨hc, hcome⟩ := comes_quoted h0 h1 h2
  obtain ⟨q, htok, h⟩ := quoted_protected_iff hcode
  have hq : tokenize [39, 97, 39] = some [.str [97]] := rfl
  obtain rfl := Option.some.inj (hq.symm.trans htok)
  obtain ⟨hiff, happ⟩ := h _ _ c [] _ 0 [97] _ hc rfl rfl hcome
  obtain ⟨x, stk, hf, hd⟩ := hiff.mpr (by decide)
  obtain ⟨y, hy, hd'⟩ := happ (by decide) rfl 1 c' h3
  exact ⟨c, c', _, x, stk, hc, hf, hd, h3, y, h4 ▸ hy.values, hd'⟩

/-- The program `'~'`, whose string is taken for an operator. -/
theorem quoted_not_protected : ¬ ∀ (ts : List Token) (code : List ℕ) (q : List Tree)
    (c : Config Unit) (path : List ℕ) (us : List Token) (j : ℕ) (ws : List ℕ) (fr : Frame),
    Renders ts code → tokenize code = some q → (programSystem noNative q).Reachable c →
    listAt ts path = some us → us[j]? = some (.quoted ws) → Comes c (program q).2 fr path us j →
    ∃ x stk, Finds c fr x j stk ∧ deref c.store x = some (.str ws) := by
  intro hall
  have hcode : Renders [.quoted [126]] [39, 126, 39] := .quoted (s := [126]) (by decide) .nil
  obtain ⟨c₀, h0, c, h1, h2⟩ : ∃ c₀, runProgStack () [.str [126]] 0 0 = some c₀ ∧
    ∃ c, step noNative c₀ 1 = some c ∧
      c.frames.head? = some { self := 10, exp := 2, state := .ef } := ⟨_, rfl, _, rfl, rfl⟩
  obtain ⟨hc, hcome⟩ := comes_quoted h0 h1 h2
  have h := hall _ _ _ c [] _ 0 [126] _ hcode rfl hc rfl rfl hcome
  exact (protected_iff hcode (.quoted .nil) (stands hc) rfl rfl hcome).mp h (by decide)

end LispMachine.Quoting
