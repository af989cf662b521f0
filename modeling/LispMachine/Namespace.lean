import LispMachine.SetsInv

/-!
Namespaces are finite maps: what the calls on a set return, in every run of a program that
shares the heap with the set.
-/

namespace LispMachine.Namespace

open LispMachine.Memory LispMachine.AvlCode LispMachine.AvlRepr
open LispMachine.AvlTree (data_of_mem)
open LispMachine.Alloc LispMachine.HeapInv LispMachine.Heap
open LispMachine.HeapRuns LispMachine.HeapFrame LispMachine.Object LispMachine.Sets
open LispMachine.SetsCmp LispMachine.SetsInv LispMachine.Lib.Assoc LispMachine.Lib.Run

variable {h sz st loc ty : ℕ} {s s' : HSt} {m : Mem} {S : St}

/-- A key for the set `st`: an object, which is not the set nor a node of it. -/
structure Key (s : HSt) (st key : ℕ) : Prop where
  obj : IsObj s key
  ne_set : key ≠ st
  not_node : ¬ IsNode s.mem (contents st 0) (key + 1)

/-- Any object that is not a node of the set. -/
structure Val (s : HSt) (st val : ℕ) : Prop where
  live : val + 1 ∈ s.live
  not_node : ¬ IsNode s.mem (contents st 0) (val + 1)

/-- Both allocations of `set_add_str_key` succeed. -/
def Allocates (h ty : ℕ) (s : HSt) (key val : ℕ) : Prop :=
  ∃ s₁ p s₂ nd, pair h ty s key val = some (s₁, p) ∧ p ≠ 0 ∧
    (incRefcount s₁ p 1).alloc h 4 = some (s₂, nd) ∧ nd ≠ 0

/-- The map with a binding added, unless there is one with the key. -/
def addBinding (f : List ℕ → Option ℕ) (k : List ℕ) (v : ℕ) : List ℕ → Option ℕ :=
  if f k = none then Function.update f k (some v) else f

/-- A call on the set, with what it does to the map, or anything that a program does to the rest
of the heap. -/
inductive Next (h sz loc ty st : ℕ) (S : St) : St → Prop
  | add {key val r : ℕ} {s' : HSt} (hty : Val S.heap st ty) (hk : Key S.heap st key)
    (hv : Val S.heap st val) (ha : Allocates h ty S.heap key val)
    (hr : setAddStrKey h ty S.heap st key val = some (s', r)) :
    Next h sz loc ty st S ⟨s', addBinding S.map (text S.heap.mem key) val⟩
  | remove {key p : ℕ} {s' : HSt} (hk : Key S.heap st key)
    (hr : setRemoveStrKey h loc S.heap st key = some (s', p)) :
    Next h sz loc ty st S ⟨s', Function.update S.map (text S.heap.mem key) none⟩
  | other {s' : HSt} (hs : HStep h sz (fun _ => True) S.heap s')
    (hx : ∀ a i, InUse S.heap.mem st a i → Survives S.heap s' a i) :
    Next h sz loc ty st S ⟨s', S.map⟩

/-- The runs on the set `st`, which is empty at first, in a heap that has been in use. -/
def setSystem (h sz loc ty st : ℕ) : System St where
  init S := (heapSystem h sz fun _ => True).Reachable S.heap ∧ st + 1 ∈ S.heap.live ∧
    4 ≤ getMemSz S.heap.mem (st + 1) ∧ S.heap.mem (contents st 0) = 0 ∧ S.map = fun _ => none
  step := Next h sz loc ty st

lemma good_invariant (hloc : loc + 4 ≤ h ∨ h + sz ≤ loc) :
    (setSystem h sz loc ty st).Invariant fun S => ∃ t, Good h sz st S t := by
  constructor
  · rintro S ⟨h1, h2, h3, h4, h5⟩
    obtain ⟨lost, t, U, hi, -⟩ := inv_reachable h1
    refine ⟨.nil, ⟨⟨lost, t, U, hi⟩, ⟨h2, h3⟩, ⟨⟨trivial, h4, sep_nil _⟩, trivial⟩, by simp,
      by simp, by simp, .nil, ?_⟩⟩
    rw [h5]
    exact .nil
  · rintro S S' ⟨t, hg⟩ hs
    have hnode : ∀ {nd}, _ ↔ nd ∈ addrs t := isNode_iff hg.holds
    cases hs with
    | add hty hk hv ha hr =>
      obtain ⟨s₁, p, s₂, nd, h1, h2, h3, h4⟩ := ha
      rcases hg.add hty.live (mt hnode.mpr hty.not_node) hk.obj hk.ne_set
        (mt hnode.mpr hk.not_node) hv.live (mt hnode.mpr hv.not_node) h1 h2 h3 h4 with
        ⟨h5, s', h6, h7⟩ | ⟨h5, s', t', h6, h7⟩
      · obtain ⟨rfl, -⟩ := Prod.mk.inj (Option.some.inj (h6.symm.trans hr))
        exact ⟨t, by rwa [addBinding, if_neg h5]⟩
      · obtain ⟨rfl, -⟩ := Prod.mk.inj (Option.some.inj (h6.symm.trans hr))
        exact ⟨t', by rwa [addBinding, if_pos h5]⟩
    | remove hk hr =>
      rcases hg.remove hloc hk.obj with ⟨h1, h2⟩ | ⟨v, s', p, t', h1, h2, -, -, -, h3⟩
      · obtain ⟨rfl, -⟩ := Prod.mk.inj (Option.some.inj (h2.symm.trans hr))
        refine ⟨t, ?_⟩
        rwa [← h1, Function.update_eq_self]
      · obtain ⟨rfl, -⟩ := Prod.mk.inj (Option.some.inj (h2.symm.trans hr))
        exact ⟨t', h3⟩
    | other hs hx =>
      obtain ⟨lost, t', U, hi⟩ := hg.sound
      obtain ⟨lost', t'', U', hi', -⟩ := inv_step hi hs
      exact ⟨t, hg.ext (W := fun a i => ¬ InUse S.heap.mem st a i) ⟨lost', t'', U', hi'⟩
        (fun a _ i _ hn => hx a i (not_not.mp hn)) fun a i hu hn => hn hu⟩

/-- What `set_add_str_key` returns, when its allocations succeed. -/
lemma add_returns {t : T} {key val : ℕ} (hg : Good h sz st S t) (hty : Val S.heap st ty)
    (hk : Key S.heap st key) (hv : Val S.heap st val) (ha : Allocates h ty S.heap key val) :
    ∃ s', setAddStrKey h ty S.heap st key val =
      some (s', if S.map (text S.heap.mem key) = none then 0 else 1) := by
  have hnode : ∀ {nd}, _ ↔ nd ∈ addrs t := isNode_iff hg.holds
  obtain ⟨s₁, p, s₂, nd, h1, h2, h3, h4⟩ := ha
  rcases hg.add hty.live (mt hnode.mpr hty.not_node) hk.obj hk.ne_set
    (mt hnode.mpr hk.not_node) hv.live (mt hnode.mpr hv.not_node) h1 h2 h3 h4 with
    ⟨h5, s', h6, -⟩ | ⟨h5, s', -, h6, -⟩
  · exact ⟨s', by rw [h6, if_neg h5]⟩
  · exact ⟨s', by rw [h6, if_pos h5]⟩

/-- **Namespaces are finite maps**: in every state of every run on a set, `get` returns the value
bound to the key or null; `add` returns `0` and binds an absent key, and returns `1` for a present
one; `remove` returns the pair of just the key, or null, and unbinds it. The map of the state
after a call is the one that the next calls are about. -/
theorem namespace_finite_map (hloc : loc + 4 ≤ h ∨ h + sz ≤ loc)
    (hS : (setSystem h sz loc ty st).Reachable S) :
    (∀ key, Key S.heap st key →
      setGetValue loc S.heap.mem st key = some ((S.map (text S.heap.mem key)).getD 0)) ∧
    (∀ key val, Val S.heap st ty → Key S.heap st key → Val S.heap st val →
      Allocates h ty S.heap key val → ∃ s', setAddStrKey h ty S.heap st key val =
        some (s', if S.map (text S.heap.mem key) = none then 0 else 1) ∧
      (setSystem h sz loc ty st).Reachable ⟨s', addBinding S.map (text S.heap.mem key) val⟩) ∧
    ∀ key, Key S.heap st key → ∃ s' p, setRemoveStrKey h loc S.heap st key = some (s', p) ∧
      (setSystem h sz loc ty st).Reachable ⟨s', Function.update S.map (text S.heap.mem key) none⟩ ∧
      match S.map (text S.heap.mem key) with
      | none => p = 0 ∧ s' = S.heap
      | some v => p + 1 ∈ s'.live ∧ s'.mem.ptr (contents p 1) = v ∧
        text s'.mem (s'.mem.ptr (contents p 0)) = text S.heap.mem key := by
  obtain ⟨t, hg⟩ := (good_invariant hloc).reachable hS
  refine ⟨fun key hk => ?_, fun key val hty hk hv ha => ?_, fun key hk => ?_⟩
  · obtain ⟨r, h1, h2⟩ := hg.find hloc hk.obj
    rw [setGetValue, h1, Option.map_some]
    rcases h2 with ⟨rfl, h2⟩ | ⟨e, he, rfl, h2⟩
    · rw [if_pos rfl, hg.map_eq_none.mpr h2]
      rfl
    · obtain ⟨he0, hd⟩ := data_of_mem hg.holds.zip.tree he
      rw [if_neg he0, hg.map_eq_some he h2, dataPtr, hd]
      rfl
  · obtain ⟨s', hr⟩ := add_returns hg hty hk hv ha
    exact ⟨s', hr, hS.step (.add hty hk hv ha hr)⟩
  · rcases hg.remove hloc hk.obj with ⟨h1, h2⟩ | ⟨v, s', p, t', h1, h2, h3, h4, h5, -⟩
    · refine ⟨S.heap, 0, h2, hS.step (.remove hk h2), ?_⟩
      rw [h1]
      exact ⟨rfl, rfl⟩
    · refine ⟨s', p, h2, hS.step (.remove hk h2), ?_⟩
      rw [h1]
      have hdiv : 8 * p / 8 = p := by omega
      rw [binding, keyOf, valOf, hdiv] at h5
      obtain ⟨h6, h7⟩ := Prod.mk.inj h5
      exact ⟨h4, h7, h6⟩

lemma not_isNode {tr nd : ℕ} (h0 : m.ptr tr = 0) : ¬ IsNode m tr nd := by
  intro hn
  induction hn with
  | root h => exact h h0
  | child hn d h ih => exact ih

/-- With room for a pair and for a node both allocations succeed. -/
lemma allocates_of_room {key val : ℕ} (hty : ty + 1 ∈ s.live) (hk : key + 1 ∈ s.live)
    (hv : val + 1 ∈ s.live) (hr : Room h sz s 19) : Allocates h ty s key val := by
  have hfit : 4 + umdsSz < wordMod := by decide
  obtain ⟨s₁, p, h1, h2, h3, h4⟩ := pair_room (x := 9) hty hk hv hr
  have hw : Wrote h sz (fun _ _ => True) s₁ (incRefcount s₁ p 1) :=
    (Wrote.refl h4.sound).incRefcount 1 h3 trivial
  obtain ⟨lost, t, U, hi⟩ := hw.sound
  obtain ⟨s₂, nd, h5, -⟩ := alloc_meets hi hfit
  exact ⟨s₁, p, s₂, nd, h1, h2, h5, (alloc_room (x := 0) hfit h5 (hw.room 9 h4)).1⟩

/-- An empty set, a key that is the empty text, a value and a type for the pair of them. -/
lemma exists_set (loc : ℕ) (h0 : h ≠ 0) (hroom : h + 2 ^ 17 < addrSpace) :
    ∃ s st ty key val, (setSystem h (2 ^ 17) loc ty st).Reachable ⟨s, fun _ => none⟩ ∧
      Val s st ty ∧ Key s st key ∧ Val s st val ∧ Allocates h ty s key val ∧
      text s.mem key = [] := by
  obtain ⟨s, as, h1, h2, h3, h4, h5⟩ := exists_blocks h0 hroom 4 (by decide)
  obtain ⟨a, b, as, rfl⟩ : ∃ a b as', as = a :: b :: as' := by
    match as, h3 with
    | a :: b :: as', _ => exact ⟨a, b, as', rfl⟩
  obtain ⟨c, d, rfl⟩ := List.length_eq_two.mp (Nat.succ_inj.mp (Nat.succ_inj.mp h3))
  simp only [List.forall_mem_cons] at h5
  obtain ⟨⟨ha, ha'⟩, ⟨hb, hb'⟩, ⟨hc, -⟩, ⟨hd, -⟩, -⟩ := h5
  have hs := h2.sound
  have hab : a ≠ b := by
    rintro rfl
    simp at h4
  have hword : a + 3 ≠ b + 2 := fun heq =>
    hab (hs.word_inj ha hb (by omega) (by omega) heq).1
  -- the set and the key are made empty
  have w₁ : Wrote h (2 ^ 17) (fun _ _ => True) s (s.set (a + 3) 0) :=
    (Wrote.refl hs).set 0 ha (by omega) trivial
  have w₂ := w₁.set (a := b) (i := 2) 0 hb (by omega) trivial
  have hsys : (heapSystem h (2 ^ 17) fun _ => True).Reachable
      ((s.set (a + 3) 0).set (b + 2) 0) := by
    refine (h1.step (.write ha ⟨by omega, by omega⟩)).step
      (.write (a := b) (w₁.live ▸ hb) ⟨by omega, ?_⟩)
    rw [w₁.memSz b hb]
    omega
  have hblocks := fun {x} (hx : x ∈ s.live) => (hs.bounds hx).1
  obtain ⟨st, rfl⟩ : ∃ st, a = st + 1 := ⟨a - 1, by have := hblocks ha; omega⟩
  obtain ⟨key, rfl⟩ : ∃ key, b = key + 1 := ⟨b - 1, by have := hblocks hb; omega⟩
  obtain ⟨ty, rfl⟩ : ∃ ty, c = ty + 1 := ⟨c - 1, by have := hblocks hc; omega⟩
  obtain ⟨val, rfl⟩ : ∃ val, d = val + 1 := ⟨d - 1, by have := hblocks hd; omega⟩
  have hroot : ((s.set (st + 1 + 3) 0).set (key + 1 + 2) 0).mem (contents st 0) = 0 :=
    (set_ne _ _ (by unfold contents; omega)).trans (set_self ..)
  have hz : ((s.set (st + 1 + 3) 0).set (key + 1 + 2) 0).mem (size key) = 0 := set_self ..
  generalize (s.set (st + 1 + 3) 0).set (key + 1 + 2) 0 = s' at w₂ hsys hroot hz
  have hnode : ∀ {nd}, ¬ IsNode s'.mem (contents st 0) nd :=
    not_isNode (Nat.div_eq_of_lt (by rw [hroot]; omega))
  refine ⟨s', st, ty, key, val, .init ⟨hsys, w₂.live ▸ ha, ?_, hroot, rfl⟩, ⟨w₂.live ▸ hc, hnode⟩,
    ⟨⟨w₂.live ▸ hb, ?_⟩, fun heq => hab (by rw [heq]), hnode⟩, ⟨w₂.live ▸ hd, hnode⟩,
    allocates_of_room (w₂.live ▸ hc) (w₂.live ▸ hb) (w₂.live ▸ hd)
      (w₂.room 19 (h2.mono (by decide))), ?_⟩
  · exact ha'.trans (w₂.memSz _ ha).ge
  · rw [w₂.memSz _ hb, hz]
    omega
  · rw [text, hz]
    rfl

/-- The key of a pair that the set has is an object that it may be asked for. -/
lemma exists_key (hloc : loc + 4 ≤ h ∨ h + sz ≤ loc) (hS : (setSystem h sz loc ty st).Reachable S)
    {k : List ℕ} {v : ℕ} (hk : S.map k = some v) : ∃ key, Key S.heap st key ∧
      text S.heap.mem key = k := by
  obtain ⟨t, hg⟩ := (good_invariant hloc).reachable hS
  obtain ⟨e, he, heq⟩ := List.mem_map.mp ((hg.map.mem _ _).mp hk)
  have hp := hg.pairs e he
  exact ⟨_, ⟨hp.key, hp.key_ne_set, mt (isNode_iff hg.holds).mp hp.key_not_node⟩,
    congrArg Prod.fst heq⟩

/-- A binding is added to an empty set, found, and removed. -/
theorem namespace_finite_map_binding : ∃ (S S' : St) (st ty key val : ℕ),
    (setSystem 1 (2 ^ 17) (2 ^ 18) ty st).Reachable S ∧
    setGetValue (2 ^ 18) S.heap.mem st key = some 0 ∧
    setAddStrKey 1 ty S.heap st key val = some (S'.heap, 0) ∧
    ∃ key', Key S'.heap st key' ∧ text S'.heap.mem key' = text S.heap.mem key ∧
      setGetValue (2 ^ 18) S'.heap.mem st key' = some val ∧
      ∃ s' p, setRemoveStrKey 1 (2 ^ 18) S'.heap st key' = some (s', p) ∧ p + 1 ∈ s'.live ∧
        s'.mem.ptr (contents p 1) = val := by
  have hloc : (2 ^ 18 : ℕ) + 4 ≤ 1 ∨ 1 + 2 ^ 17 ≤ 2 ^ 18 := by decide
  obtain ⟨s, st, ty, key, val, hS, hty, hk, hv, ha, -⟩ :=
    @exists_set 1 (2 ^ 18) (by decide) (by decide)
  obtain ⟨h1, h2, -⟩ := namespace_finite_map hloc hS
  obtain ⟨s₁, h3, hS₁⟩ := h2 key val hty hk hv ha
  have hadd : addBinding (fun _ => none) (text s.mem key) val (text s.mem key) = some val := by
    rw [addBinding, if_pos rfl, Function.update_self]
  obtain ⟨key', hk', htext⟩ := exists_key hloc hS₁ hadd
  obtain ⟨h4, -, h5⟩ := namespace_finite_map hloc hS₁
  obtain ⟨s₂, p, h6, -, h7⟩ := h5 key' hk'
  have h8 := h4 key' hk'
  dsimp only at h7 h8
  rw [htext, hadd] at h7 h8
  exact ⟨_, _, st, ty, key, val, hS, h1 key hk, h3, key', hk', htext, h8, s₂, p, h6, h7.1, h7.2.1⟩

end LispMachine.Namespace
