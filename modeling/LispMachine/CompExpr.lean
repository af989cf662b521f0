import LispMachine.Store
import LispMachine.NumStr
import Mathlib.Algebra.Group.Pi.Basic

/-!
What `comp_expr` does with the assembler's result, and with its own objects.

The objects from before are as they were but for references that were added; the objects that were
made are given one by one. Deleting an object takes its references away again.
-/

namespace LispMachine.CompExpr

open LispMachine.Memory LispMachine.Store LispMachine.BignumWf LispMachine.NumStr
open LispMachine.Object (Types)

variable {ty : Types} {s₀ s s' : St} {a b c n i k w : ℕ} {d : ℕ → ℕ} {T : ℕ → Option Obj}
variable {o x : Obj} {ws as es : List ℕ} {setDelete : St → ℕ → Option St}

/-! ### Objects -/

@[simp] lemma words_ofWords (r t : ℕ) (ws : List ℕ) : (Obj.ofWords r t ws).words = ws := by
  refine List.ext_getElem (by simp [Obj.words, Obj.ofWords]) fun i h1 h2 => ?_
  simp [Obj.words, Obj.ofWords, h2]

@[simp] lemma words_incr (o : Obj) (n : ℕ) : (o.incr n).words = o.words := rfl
@[simp] lemma incr_zero (h : o.refcount < wordMod) : o.incr 0 = o := by
  rw [Obj.incr, wadd_eq (by omega), Nat.add_zero]

lemma incr_incr (o : Obj) (n m : ℕ) : (o.incr n).incr m = o.incr (n + m) := by
  simp only [Obj.incr, wadd, Nat.mod_add_mod, Nat.add_assoc]

@[simp] lemma put_objs_self (s : St) (a : ℕ) (o : Obj) : (s.put a o).objs a = some o :=
  Function.update_self ..

@[simp] lemma put_objs_of_ne (o : Obj) (h : b ≠ a) : (s.put a o).objs b = s.objs b :=
  Function.update_of_ne h ..

/-- A word is appended to an object that is its words. -/
lemma appended_ofWords (r t : ℕ) (ws : List ℕ) (w : ℕ) :
    { (Obj.ofWords r t ws).setWord (Obj.ofWords r t ws).size w with
      size := (Obj.ofWords r t ws).size + 1 } = Obj.ofWords r t (ws ++ [w]) := by
  simp only [Obj.ofWords, Obj.setWord, List.length_append, List.length_singleton, Obj.mk.injEq,
    true_and]
  funext i
  rw [Function.update_apply]
  split_ifs with h
  · subst h
    simp
  · rcases Nat.lt_or_ge i ws.length with hlt | hge
    · rw [List.getD_append _ _ _ _ hlt]
    · rw [List.getD_eq_default _ _ hge, List.getD_eq_default]
      rw [List.length_append, List.length_singleton]
      omega

/-! ### What has changed -/

/-- The objects of the state `s₀` with `d` references more, and the new ones `T`. -/
structure View (s₀ s : St) (d : ℕ → ℕ) (T : ℕ → Option Obj) : Prop where
  old : ∀ a < s₀.next, s.objs a = (s₀.objs a).map (Obj.incr (d a))
  new : ∀ a, s₀.next ≤ a → s.objs a = T a
  next : s₀.next ≤ s.next
  free : ∀ a, s.next ≤ a → T a = none

/-- There is nothing at null, and nothing where new objects come; counts are words. -/
structure Sane (s : St) : Prop where
  null : s.objs 0 = none
  pos : 0 < s.next
  fresh : ∀ a, s.next ≤ a → s.objs a = none
  count : ∀ a o, s.objs a = some o → o.refcount < wordMod

lemma Sane.lt (hs : Sane s) (ha : s.objs a = some o) : a < s.next := by
  by_contra hge
  rw [hs.fresh a (by omega)] at ha
  cases ha

lemma View.refl (hs : Sane s) : View s s 0 fun _ => none := by
  refine ⟨fun a _ => ?_, hs.fresh, le_rfl, fun _ _ => rfl⟩
  cases h : s.objs a with
  | none => rfl
  | some o => exact congrArg some (incr_zero (hs.count a o h)).symm

namespace View

lemma get (hv : View s₀ s d T) (hs : Sane s₀) (ha : s₀.objs a = some o) :
    s.objs a = some (o.incr (d a)) := by
  rw [hv.old a (hs.lt ha), ha]
  rfl

/-- A reference more. -/
lemma incr (hv : View s₀ s d T) (hs : Sane s₀) (ha : s₀.objs a = some o) :
    ∃ s', s.incr a 1 = some s' ∧ View s₀ s' (d + Pi.single a 1) T ∧ s'.next = s.next := by
  have hlt := hs.lt ha
  refine ⟨s.put a ((o.incr (d a)).incr 1), by rw [St.incr, hv.get hs ha]; rfl,
    ⟨fun b hb => ?_, fun b hb => ?_, hv.next, hv.free⟩, rfl⟩
  · by_cases h : b = a
    · subst h
      simp [St.put, ha, incr_incr]
    · simp [St.put, h, hv.old b hb]
  · simp only [St.put]
    rw [Function.update_of_ne (by omega), hv.new b hb]

/-- A new object is changed. -/
lemma put (hv : View s₀ s d T) (ha : s₀.next ≤ a) (hlt : a < s.next) (o : Obj) :
    View s₀ (s.put a o) d (Function.update T a (some o)) := by
  refine ⟨fun b hb => ?_, fun b hb => ?_, hv.next, fun b hb => ?_⟩
  · simp only [St.put]
    rw [Function.update_of_ne (by omega), hv.old b hb]
  · simp only [St.put, Function.update_apply, hv.new b hb]
  · rw [Function.update_of_ne (by change s.next ≤ b at hb; omega)]
    exact hv.free b hb

lemma lt_next (hv : View s₀ s d T) (ha : T a = some o) : a < s.next := by
  by_contra hge
  rw [hv.free a (by omega)] at ha
  cases ha

/-- `object` -/
lemma object (hv : View s₀ s d T) (hs : Sane s₀) {t : ℕ} (ht : s₀.objs t = some o)
    (ws : List ℕ) : ∃ s', object s t ws = some (s', s.next) ∧ s'.next = s.next + 8 ∧
      View s₀ s' (d + Pi.single t 1) (Function.update T s.next (some (.ofWords 0 t ws))) := by
  have h1 : View s₀ ⟨s.objs, s.next + 8⟩ d T :=
    ⟨hv.old, hv.new, hv.next.trans (Nat.le_add_right _ _),
      fun a ha => hv.free a ((Nat.le_add_right _ _).trans ha)⟩
  have h2 := h1.put hv.next (Nat.lt_add_of_pos_right (by decide)) (.ofWords 0 t ws)
  obtain ⟨s', h3, h4, h5⟩ := h2.incr hs ht
  exact ⟨s', by rw [Store.object, h3]; rfl, h5, h4⟩

/-- `object_append_word`, for a new object -/
lemma appendWord (hv : View s₀ s d T) (hs : Sane s₀) (ha : s₀.next ≤ a) {r t : ℕ}
    (hT : T a = some (.ofWords r t ws)) (w : ℕ) :
    ∃ s', objectAppendWord s a w = some (s', a) ∧ s'.next = s.next ∧
      View s₀ s' d (Function.update T a (some (.ofWords r t (ws ++ [w])))) := by
  have h1 := hv.put ha (hv.lt_next hT) (.ofWords r t (ws ++ [w]))
  have hpos := hs.pos
  refine ⟨s.put a (.ofWords r t (ws ++ [w])), ?_, rfl, h1⟩
  rw [objectAppendWord, if_neg (by omega), hv.new a ha, hT, Option.map_some, appended_ofWords]

lemma appendWords (hv : View s₀ s d T) (hs : Sane s₀) (ha : s₀.next ≤ a) {r t : ℕ}
    (hT : T a = some (.ofWords r t ws)) (ws' : List ℕ) :
    ∃ s', appendWords ws' s a = some (s', a) ∧ s'.next = s.next ∧
      View s₀ s' d (Function.update T a (some (.ofWords r t (ws ++ ws')))) := by
  induction ws' generalizing s ws T with
  | nil =>
    refine ⟨s, rfl, rfl, ?_⟩
    rw [List.append_nil, ← hT, Function.update_eq_self]
    exact hv
  | cons w ws' ih =>
    obtain ⟨s₁, h1, h2, h3⟩ := hv.appendWord hs ha hT w
    obtain ⟨s₂, h4, h5, h6⟩ := ih h3 (Function.update_self ..)
    rw [Function.update_idem, List.append_assoc, List.singleton_append] at h6
    refine ⟨s₂, ?_, h5.trans h2, h6⟩
    rw [Store.appendWords, h1, Option.bind_some]
    exact h4

/-- `_object_delete`, of a new object -/
lemma delete (hv : View s₀ s d T) (ha : s₀.next ≤ a) (hT : T a = some o) :
    ∃ s', s.free a = some s' ∧ s'.next = s.next ∧ View s₀ s' d (Function.update T a none) := by
  refine ⟨⟨Function.update s.objs a none, s.next⟩, by rw [St.free, hv.new a ha, hT]; rfl, rfl,
    ⟨fun b hb => ?_, fun b hb => ?_, hv.next, fun b hb => ?_⟩⟩
  · exact (Function.update_of_ne (by omega) ..).trans (hv.old b hb)
  · simp only [Function.update_apply, hv.new b hb]
  · rw [Function.update_apply]
    split_ifs
    · rfl
    · exact hv.free b hb

end View

/-! ### Types -/

/-- There is an object with these words. -/
def HasWords (s : St) (a : ℕ) (ws : List ℕ) : Prop := (s.objs a).map Obj.words = some ws

/-- The objects of the types have their names. -/
structure Typed (s : St) (ty : Types) : Prop where
  string : HasWords s ty.stringType (chars "str")
  num : HasWords s ty.numType (chars "num")
  array : HasWords s ty.arrayType (chars "arr")
  subarray : HasWords s ty.subarrayType (chars "sar")
  set : HasWords s ty.setType (chars "set")
  function : HasWords s ty.functionType (chars "fun")
  cell : HasWords s ty.cellType (chars "cel")
  bcode : HasWords s ty.bcodeType (chars "bco")

lemma View.hasWords (hv : View s₀ s d T) (hs : Sane s₀) (ha : HasWords s₀ a ws) :
    HasWords s a ws := by
  obtain ⟨o, h1, h2⟩ := Option.map_eq_some_iff.mp ha
  rw [HasWords, hv.get hs h1, Option.map_some, words_incr, h2]

lemma View.typed (hv : View s₀ s d T) (hs : Sane s₀) (ht : Typed s₀ ty) : Typed s ty :=
  ⟨hv.hasWords hs ht.string, hv.hasWords hs ht.num, hv.hasWords hs ht.array,
    hv.hasWords hs ht.subarray, hv.hasWords hs ht.set, hv.hasWords hs ht.function,
    hv.hasWords hs ht.cell, hv.hasWords hs ht.bcode⟩

lemma isType_eq {t : ℕ} {ws' : List ℕ} (h₁ : HasWords s o.type ws) (h₂ : HasWords s t ws') :
    isType s o t = some (decide (ws = ws')) := by
  obtain ⟨o₁, h3, h4⟩ := Option.map_eq_some_iff.mp h₁
  obtain ⟨o₂, h5, h6⟩ := Option.map_eq_some_iff.mp h₂
  rw [isType, objEq, h3, Option.bind_some, h5, Option.map_some, h4, h6]

/-! ### Deletion -/

variable (ty setDelete n) in
/-- A reference to an older object is taken away, and there are others. -/
lemma View.drop (hv : View s₀ s (d + Pi.single a 1) T) (hs : Sane s₀) (ha : s₀.objs a = some o)
    (h0 : wadd o.refcount (d a) ≠ 0) :
    ∃ s', objectDelete ty setDelete (n + 1) s a = some s' ∧ s'.next = s.next ∧
      View s₀ s' d T := by
  have hlt := hs.lt ha
  have hne : a ≠ 0 := fun heq => by
    rw [heq, hs.null] at ha
    cases ha
  have hcount : wsub (o.incr ((d + Pi.single a 1 : ℕ → ℕ) a)).refcount 1 =
      (o.incr (d a)).refcount := by
    simp only [Obj.incr, Pi.add_apply, Pi.single_eq_same]
    unfold wsub wadd wordMod
    omega
  refine ⟨s.put a (o.incr (d a)), ?_, rfl, ⟨fun b hb => ?_, fun b hb => ?_, hv.next, hv.free⟩⟩
  · rw [objectDelete, if_neg hne, hv.get hs ha, Option.bind_some]
    dsimp only
    rw [hcount]
    exact if_pos h0
  · by_cases h : b = a
    · subst h
      simp [St.put, ha]
    · simp [St.put, h, hv.old b hb]
  · simp only [St.put]
    rw [Function.update_of_ne (by omega), hv.new b hb]

/-- A reference to a new object. -/
lemma View.incr_new (hv : View s₀ s d T) (ha : s₀.next ≤ a) (hT : T a = some o) :
    ∃ s', s.incr a 1 = some s' ∧ s'.next = s.next ∧
      View s₀ s' d (Function.update T a (some (o.incr 1))) :=
  ⟨s.put a (o.incr 1), by rw [St.incr, hv.new a ha, hT]; rfl, rfl, hv.put ha (hv.lt_next hT) _⟩

lemma incr_ofWords (t : ℕ) (ws : List ℕ) : (Obj.ofWords 0 t ws).incr 1 = .ofWords 1 t ws := rfl

/-- What is freed without a look at its contents. -/
def isLeaf (name : List ℕ) : Bool :=
  decide (name = chars "num") || decide (name = chars "str") || decide (name = chars "bco")

/-- The last reference to an object is taken away. -/
lemma objectDelete_last (hne : a ≠ 0) (hget : s.objs a = some o) (hrc : wsub o.refcount 1 = 0)
    (ht : Typed (s.put a { o with refcount := 0 }) ty) {name : List ℕ}
    (hname : HasWords (s.put a { o with refcount := 0 }) o.type name) :
    objectDelete ty setDelete (n + 1) s a =
      let s := s.put a { o with refcount := 0 }
      let delete := objectDelete ty setDelete n
      if isLeaf name then (s.free a).bind fun s => delete s o.type
      else if decide (name = chars "set") then (setDelete s a).bind fun s => delete s o.type
      else if decide (name = chars "cel") || decide (name = chars "sar") then
        (deleteContents delete a o.size 0 s).bind fun s =>
        (s.free a).bind fun s => delete s o.type
      else if decide (name = chars "arr") then
        (objArrayDelete delete s a).bind fun s => delete s o.type
      else if decide (name = chars "fun") then some s
      else delete s o.type := by
  have htype : ∀ t nm, HasWords (s.put a { o with refcount := 0 }) t nm →
      isType (s.put a { o with refcount := 0 }) o t = some (decide (name = nm)) :=
    fun t nm h => isType_eq hname h
  rw [objectDelete, if_neg hne, hget, Option.bind_some]
  dsimp only
  rw [hrc, if_neg (not_not.mpr rfl), htype _ _ ht.num, htype _ _ ht.string, htype _ _ ht.bcode,
    htype _ _ ht.set, htype _ _ ht.cell, htype _ _ ht.subarray, htype _ _ ht.array,
    htype _ _ ht.function]
  rfl

variable (ty setDelete n) in
/-- **`o_del`**, of a new string or number -/
lemma View.oDel_leaf (hv : View s₀ s (d + Pi.single b 1) T) (hs : Sane s₀) (ht : Typed s₀ ty)
    (ha : s₀.next ≤ a) (hT : T a = some (.ofWords 0 b ws)) {name : List ℕ}
    (hname : HasWords s₀ b name) (hleaf : isLeaf name = true) (hb : s₀.objs b = some o)
    (h0 : wadd o.refcount (d b) ≠ 0) :
    ∃ s', oDel ty setDelete (n + 2) s a = some s' ∧ s'.next = s.next ∧
      View s₀ s' d (Function.update T a none) := by
  have hpos := hs.pos
  obtain ⟨s₁, h1, hn₁, h2⟩ := hv.incr_new ha hT
  rw [incr_ofWords] at h2
  have h3 := h2.put ha (h2.lt_next (Function.update_self ..)) (.ofWords 0 b ws)
  rw [Function.update_idem] at h3
  obtain ⟨s₂, h4, hn₂, h5⟩ := h3.delete ha (Function.update_self ..)
  rw [Function.update_idem] at h5
  obtain ⟨s₃, h6, hn₃, h7⟩ := h5.drop ty n setDelete hs hb h0
  have hname' := h3.hasWords hs hname
  have ht' := h3.typed hs ht
  have hget : s₁.objs a = some (.ofWords 1 b ws) := by
    rw [h2.new a ha, Function.update_self]
  refine ⟨s₃, ?_, by rw [hn₃, hn₂]; exact hn₁, h7⟩
  have hrc : wsub 1 1 = 0 := by decide
  rw [oDel, h1, Option.bind_some, objectDelete_last (by omega) hget hrc ht' hname', if_pos hleaf]
  exact (congrArg (Option.bind · _) h4).trans h6

/-! ### Lists -/

/-- A list object: its first word is the address of its elements. -/
def listObj (t sub : ℕ) : Obj := (Obj.ofWords 0 t []).setWord 0 sub

@[simp] lemma listObj_contents (t sub : ℕ) : (listObj t sub).contents 0 = sub := by
  simp [listObj, Obj.setWord]

/-- **`obj_array`** -/
lemma View.objArray (hv : View s₀ s d T) (hs : Sane s₀) {o' : Obj}
    (h₁ : s₀.objs ty.subarrayType = some o) (h₂ : s₀.objs ty.arrayType = some o') :
    ∃ s', objArray ty s = some (s', s.next + 8) ∧ s'.next = s.next + 16 ∧
      View s₀ s' (d + Pi.single ty.subarrayType 1 + Pi.single ty.arrayType 1)
        (Function.update (Function.update T s.next (some (.ofWords 1 ty.subarrayType [])))
          (s.next + 8) (some (listObj ty.arrayType s.next))) := by
  obtain ⟨s₁, h3, hn₁, h4⟩ := hv.object hs h₁ []
  obtain ⟨s₂, h5, hn₂, h6⟩ := h4.incr_new hv.next (Function.update_self ..)
  rw [Function.update_idem, incr_ofWords] at h6
  obtain ⟨s₃, h7, hn₃, h8⟩ := h6.object hs h₂ []
  rw [hn₂, hn₁] at h7 hn₃ h8
  have hnext := hv.next
  have h9 := h8.put (a := s.next + 8) (by omega) (by omega) (listObj ty.arrayType s.next)
  rw [Function.update_idem] at h9
  refine ⟨s₃.put (s.next + 8) (listObj ty.arrayType s.next), ?_, hn₃, h9⟩
  rw [Store.objArray, h3, Option.bind_some]
  dsimp only
  rw [h5, Option.bind_some, h7, Option.bind_some]
  dsimp only
  rw [h8.new _ (by omega), Function.update_self]
  rfl

/-- The new object at `a` is a list, and its elements, at `b`, are `as`. -/
structure ListAt (T : ℕ → Option Obj) (a b : ℕ) (t t' r : ℕ) (as : List ℕ) : Prop where
  list : T a = some (listObj t b)
  elems : T b = some (.ofWords r t' as)
  ne : a ≠ b

lemma ListAt.elems_update {t t' r : ℕ} (hl : ListAt T a b t t' r as) (as' : List ℕ) :
    ListAt (Function.update T b (some (.ofWords r t' as'))) a b t t' r as' :=
  ⟨by rw [Function.update_of_ne hl.ne, hl.list], Function.update_self .., hl.ne⟩

/-- **`obj_array_append`**, to a new list -/
lemma View.objArrayAppend (hv : View s₀ s d T) (hs : Sane s₀) {t t' r : ℕ}
    (hl : ListAt T a b t t' r as) (ha : s₀.next ≤ a) (hb : s₀.next ≤ b)
    (hc : s₀.objs c = some o) : ∃ s', objArrayAppend s a c = some s' ∧ s'.next = s.next ∧
      View s₀ s' (d + Pi.single c 1) (Function.update T b (some (.ofWords r t' (as ++ [c])))) := by
  have hpos := hs.pos
  have hc0 : c ≠ 0 := fun heq => by
    rw [heq, hs.null] at hc
    cases hc
  obtain ⟨s₁, h1, h2, hn₁⟩ := hv.incr hs hc
  obtain ⟨s₂, h3, hn₂, h4⟩ := h2.appendWord hs hb hl.elems c
  have hl' := hl.elems_update (as ++ [c])
  have h5 := h4.put ha (h4.lt_next hl'.list) (listObj t b)
  rw [← hl'.list, Function.update_eq_self] at h5
  refine ⟨s₂.put a (listObj t b), ?_, hn₂.trans hn₁, h5⟩
  have hself : (listObj t b).setWord 0 b = listObj t b := by
    rw [listObj, Obj.setWord, Obj.setWord, Function.update_idem]
  rw [Store.objArrayAppend, hv.new a ha, hl.list, Option.bind_some, listObj_contents,
    objectAppend, if_neg (by omega), h1, Option.bind_some, h3, Option.bind_some]
  dsimp only
  rw [h4.new a ha, hl'.list, Option.map_some, hself]

/-- The elements of `es` that are no lists, and those of the lists among them, are `as`. -/
inductive Leaves (s : St) (ty : Types) : List ℕ → List ℕ → Prop
  | nil : Leaves s ty [] []
  | leaf {e : ℕ} {es as : List ℕ} {x : Obj} (he : s.objs e = some x)
      (ht : isType s x ty.arrayType = some false) (hes : Leaves s ty es as) :
      Leaves s ty (e :: es) (e :: as)
  | list {e : ℕ} {es as as' : List ℕ} {x sub : Obj} (he : s.objs e = some x)
      (ht : isType s x ty.arrayType = some true) (hx : s.objs (x.contents 0) = some sub)
      (hsub : Leaves s ty sub.words as) (hes : Leaves s ty es as') :
      Leaves s ty (e :: es) (as ++ as')

/-- How often an address is in a list. -/
def count (as : List ℕ) : ℕ → ℕ := fun a => as.count a

@[simp] lemma count_nil : count [] = 0 := rfl

lemma count_cons (a : ℕ) (as : List ℕ) : count (a :: as) = Pi.single a 1 + count as := by
  funext b
  simp only [count, List.count_cons, Pi.add_apply, Pi.single_apply, beq_iff_eq, eq_comm (a := a)]
  omega

lemma count_append (as as' : List ℕ) : count (as ++ as') = count as + count as' :=
  funext fun _ => List.count_append ..

lemma objEq_eq_some {v : Bool} (h : objEq s a b = some v) :
    ∃ o o', s.objs a = some o ∧ s.objs b = some o' ∧ v = decide (o.words = o'.words) := by
  obtain ⟨o, h1, h2⟩ := Option.bind_eq_some_iff.mp h
  obtain ⟨o', h3, rfl⟩ := Option.map_eq_some_iff.mp h2
  exact ⟨o, o', h1, h3, rfl⟩

lemma View.isType (hv : View s₀ s d T) (hs : Sane s₀) {t : ℕ} {v : Bool}
    (h : isType s₀ o t = some v) : isType s (o.incr n) t = some v := by
  obtain ⟨o₁, o₂, h1, h2, rfl⟩ := objEq_eq_some h
  rw [Store.isType, objEq, Obj.incr, hv.get hs h1, Option.bind_some, hv.get hs h2]
  rfl

lemma View.size (hv : View s₀ s d T) (hs : Sane s₀) (ha : s₀.objs a = some o)
    (hx : s₀.objs (o.contents 0) = some x) : objArraySize s a = some x.size := by
  rw [objArraySize, hv.get hs ha, Option.bind_some, Obj.incr, hv.get hs hx]
  rfl

lemma View.idx (hv : View s₀ s d T) (hs : Sane s₀) (ha : s₀.objs a = some o)
    (hx : s₀.objs (o.contents 0) = some x) : objArrayIdx s a i = some (x.contents i) := by
  rw [objArrayIdx, hv.get hs ha, Option.bind_some, Obj.incr, hv.get hs hx]
  rfl

/-- **`_obj_array_flatten`** appends the leaves. -/
lemma Leaves.flatten (hl : Leaves s₀ ty es as) (hs : Sane s₀) (t t' r : ℕ)
    (ha : s₀.next ≤ a) (hb : s₀.next ≤ b) : ∃ N, ∀ n, N ≤ n → ∀ {s d T l c o x i k},
      View s₀ s d T → ListAt T a b t t' r l → s₀.objs c = some o →
      s₀.objs (o.contents 0) = some x → es = (List.range' i k).map x.contents →
      ∃ s', flattenLoop ty (flatten ty a n) a c k i s = some s' ∧ s'.next = s.next ∧
        View s₀ s' (d + count as) (Function.update T b (some (.ofWords r t' (l ++ as)))) := by
  induction hl with
  | nil =>
    refine ⟨0, fun n _ s d T l c o x i k hv hT hc hx hes => ?_⟩
    cases k with
    | succ k => cases hes
    | zero =>
      rw [List.append_nil, ← hT.elems, Function.update_eq_self, count_nil, add_zero]
      exact ⟨s, rfl, rfl, hv⟩
  | @leaf e es as y he ht _ ih =>
    obtain ⟨N, ih⟩ := ih
    refine ⟨N, fun n hn s d T l c o x i k hv hT hc hx hes => ?_⟩
    cases k with
    | zero => cases hes
    | succ k =>
      rw [List.range'_succ, List.map_cons] at hes
      obtain ⟨rfl, htail⟩ := List.cons.inj hes
      obtain ⟨s₁, h1, hn₁, h2⟩ := hv.objArrayAppend hs hT ha hb he
      obtain ⟨s₂, h3, hn₂, h4⟩ := ih n hn h2 (hT.elems_update _) hc hx htail
      rw [Function.update_idem, List.append_assoc, List.singleton_append, add_assoc,
        ← count_cons] at h4
      refine ⟨s₂, ?_, hn₂.trans hn₁, h4⟩
      rw [flattenLoop, hv.idx hs hc hx, Option.bind_some, hv.get hs he, Option.bind_some,
        hv.isType hs ht, Option.bind_some, if_neg Bool.false_ne_true, h1, Option.bind_some, h3]
  | @list e es as as' y sub he ht hy _ _ ih₁ ih₂ =>
    obtain ⟨N₁, ih₁⟩ := ih₁
    obtain ⟨N₂, ih₂⟩ := ih₂
    refine ⟨max (N₁ + 1) N₂, fun n hn s d T l c o x i k hv hT hc hx hes => ?_⟩
    cases k with
    | zero => cases hes
    | succ k =>
      rw [List.range'_succ, List.map_cons] at hes
      obtain ⟨rfl, htail⟩ := List.cons.inj hes
      obtain ⟨m, rfl⟩ : ∃ m, n = m + 1 := ⟨n - 1, by omega⟩
      have hwords : sub.words = (List.range' 0 sub.size).map sub.contents := by
        rw [Obj.words, List.range_eq_range']
      obtain ⟨s₁, h1, hn₁, h2⟩ := ih₁ m (by omega) hv hT he hy hwords
      obtain ⟨s₂, h3, hn₂, h4⟩ := ih₂ (m + 1) (by omega) h2 (hT.elems_update _) hc hx htail
      rw [Function.update_idem, List.append_assoc, add_assoc, ← count_append] at h4
      refine ⟨s₂, ?_, hn₂.trans hn₁, h4⟩
      rw [flattenLoop, hv.idx hs hc hx, Option.bind_some, hv.get hs he, Option.bind_some,
        hv.isType hs ht, Option.bind_some, if_pos rfl, Store.flatten, hv.size hs he hy,
        Option.bind_some, h1, Option.bind_some, h3]

/-- An object with references, and not too many for `k` more. -/
def Kept (s : St) (k a : ℕ) : Prop :=
  ∃ o, s.objs a = some o ∧ 0 < o.refcount ∧ o.refcount + k < wordMod

lemma wadd_ne_zero {r m : ℕ} (h0 : 0 < r) (hk : r + k < wordMod) (hm : m ≤ k) : wadd r m ≠ 0 := by
  rw [wadd_eq (by omega)]
  omega

variable (ty setDelete n) in
/-- The loop that takes the references to the elements away. -/
lemma View.deleteContents (hv : View s₀ s (d + count as) T) (hs : Sane s₀) (hb : s₀.next ≤ b)
    (pre : List ℕ) {r t : ℕ} (hT : T b = some (.ofWords r t (pre ++ as)))
    (hkept : ∀ c ∈ as, Kept s₀ k c) (hd : ∀ c, d c + as.length ≤ k) :
    ∃ s', deleteContents (objectDelete ty setDelete (n + 1)) b as.length pre.length s = some s' ∧
      s'.next = s.next ∧ View s₀ s' d T := by
  induction as generalizing s pre with
  | nil => exact ⟨s, rfl, rfl, by rwa [count_nil, add_zero] at hv⟩
  | cons c as ih =>
    obtain ⟨o, hc, h0, hk⟩ := hkept c List.mem_cons_self
    rw [count_cons, add_comm (Pi.single c 1), ← add_assoc] at hv
    have hlen := hd c
    have hle : (d + count as) c ≤ k := by
      have := List.count_le_length (a := c) (l := as)
      rw [List.length_cons] at hlen
      change d c + as.count c ≤ k
      omega
    obtain ⟨s₁, h1, hn₁, h2⟩ := hv.drop ty n setDelete hs hc (wadd_ne_zero h0 hk hle)
    rw [← List.singleton_append, ← List.append_assoc] at hT
    obtain ⟨s₂, h3, hn₂, h4⟩ := ih h2 _ hT (fun c' hc' => hkept c' (List.mem_cons_of_mem _ hc'))
      fun c' => by
        have := hd c'
        rw [List.length_cons] at this
        omega
    refine ⟨s₂, ?_, hn₂.trans hn₁, h4⟩
    have hget : (Obj.ofWords r t (pre ++ [c] ++ as)).contents pre.length = c := by
      simp [Obj.ofWords]
    rw [List.length_append] at h3
    rw [List.length_cons, Store.deleteContents, hv.new b hb, hT, Option.bind_some, hget, h1]
    exact h3

variable (setDelete n) in
/-- **`o_del`**, of a new list -/
lemma View.oDel_list (hv : View s₀ s (d + count as + Pi.single ty.subarrayType 1 +
      Pi.single ty.arrayType 1) T) (hs : Sane s₀) (ht : Typed s₀ ty)
    (hT : ListAt T a b ty.arrayType ty.subarrayType 1 as) (ha : s₀.next ≤ a) (hb : s₀.next ≤ b)
    (hkept : ∀ c ∈ as, Kept s₀ k c) (hsub : Kept s₀ k ty.subarrayType)
    (harr : Kept s₀ k ty.arrayType) (hd : ∀ c, d c + as.length + 1 ≤ k) :
    ∃ s', oDel ty setDelete (n + 2) s a = some s' ∧ s'.next = s.next ∧
      View s₀ s' d (Function.update (Function.update T a none) b none) := by
  have hpos := hs.pos
  have hle : ∀ c, count as c ≤ as.length := fun c => List.count_le_length
  have hone : ∀ t c, (Pi.single t 1 : ℕ → ℕ) c ≤ 1 := fun t c => by
    rw [Pi.single_apply]
    split_ifs <;> omega
  have hbelow : ∀ t c, (d + count as + Pi.single t 1 : ℕ → ℕ) c ≤ k := fun t c => by
    have h1 := hd c
    have h2 := hle c
    have h3 := hone t c
    simp only [Pi.add_apply]
    omega
  obtain ⟨o₁, hsub, h0₁, hk₁⟩ := hsub
  obtain ⟨o₂, harr, h0₂, hk₂⟩ := harr
  -- the last reference to the list
  obtain ⟨s₁, h1, hn₁, h2⟩ := hv.incr_new ha hT.list
  have hlist : (listObj ty.arrayType b).incr 1 =
      { listObj ty.arrayType b with refcount := 1 } := rfl
  rw [hlist] at h2
  have hget : s₁.objs a = some { listObj ty.arrayType b with refcount := 1 } := by
    rw [h2.new a ha, Function.update_self]
  have h3 := h2.put ha (h2.lt_next (Function.update_self ..)) (listObj ty.arrayType b)
  rw [Function.update_idem, ← hT.list, Function.update_eq_self] at h3
  have hrc : wsub 1 1 = 0 := by decide
  -- the elements
  rw [add_right_comm] at h3
  obtain ⟨s₂, h4, hn₂, h5⟩ := h3.drop ty n setDelete hs hsub
    (wadd_ne_zero h0₁ hk₁ (hbelow _ _))
  obtain ⟨s₃, h6, hn₃, h7⟩ := h5.delete ha hT.list
  have hb₃ : Function.update T a none b = some (.ofWords 1 ty.subarrayType as) := by
    rw [Function.update_of_ne hT.ne.symm, hT.elems]
  have h8 := h7.put hb (h7.lt_next hb₃) (.ofWords 0 ty.subarrayType as)
  rw [add_right_comm] at h8
  obtain ⟨s₄, h9, hn₄, h10⟩ := h8.deleteContents ty n setDelete hs hb []
    (Function.update_self ..) hkept fun c => by
      have h1 := hd c
      have h2 := hone ty.arrayType c
      simp only [Pi.add_apply]
      omega
  obtain ⟨s₅, h11, hn₅, h12⟩ := h10.delete hb (Function.update_self ..)
  rw [Function.update_idem] at h12
  obtain ⟨s₆, h13, hn₆, h14⟩ := h12.drop ty n setDelete hs harr
    (wadd_ne_zero h0₂ hk₂ (by have := hd ty.arrayType; omega))
  refine ⟨s₆, ?_, by rw [hn₆, hn₅, hn₄]; exact hn₃.trans (hn₂.trans hn₁), h14⟩
  have hname := (h2.put ha (h2.lt_next (Function.update_self ..)) (listObj ty.arrayType b)).hasWords
    hs ht.array
  rw [oDel, h1, Option.bind_some, objectDelete_last (by omega) hget hrc (h3.typed hs ht) hname]
  have hdelete : objArrayDelete (objectDelete ty setDelete (n + 1))
      (s₁.put a (listObj ty.arrayType b)) a = some s₅ := by
    have hrc' : wsub (Obj.ofWords 1 ty.subarrayType as).refcount 1 = 0 := hrc
    have htype : (Obj.ofWords 1 ty.subarrayType as).type = ty.subarrayType := rfl
    have hzero : { Obj.ofWords 1 ty.subarrayType as with refcount := 0 } =
        Obj.ofWords 0 ty.subarrayType as := rfl
    rw [objArrayDelete, h3.new a ha, hT.list, Option.bind_some]
    dsimp only
    rw [listObj_contents, h3.new b hb, hT.elems, Option.bind_some, htype, h4, Option.bind_some,
      h6, Option.bind_some, h7.new b hb, hb₃, Option.bind_some, hrc', if_neg (not_not.mpr rfl),
      hzero]
    exact (congrArg (Option.bind · _) h9).trans h11
  rw [if_neg (by decide), if_neg (by decide), if_neg (by decide), if_pos (by decide)]
  exact (congrArg (Option.bind · _) hdelete).trans h13

/-! ### Numbers -/

/-- Printing a number leaves it as it is. -/
lemma exists_numToStr (hw : Words ws) (hlen : 2 ≤ ws.length) :
    ∃ str, Bignum.numToStr ws = some (str, ws) := by
  rw [Bignum.numToStr, if_neg (by omega)]
  dsimp only
  split_ifs with hsgn
  · obtain ⟨buf, str, ds, h1, h2, -⟩ := print_spec words_numNegate
      (by rwa [length_numNegate])
    rw [h1, Option.bind_some, h2, Option.map_some, numNegate_numNegate hw]
    exact ⟨_, rfl⟩
  · obtain ⟨buf, str, ds, h1, h2, -⟩ := print_spec hw hlen
    rw [h1, Option.bind_some, h2]
    exact ⟨_, rfl⟩

lemma setWords_words (o : Obj) : setWords o o.words = o := by
  have hcontents : (fun i => if i < o.size then o.words.getD i 0 else o.contents i) =
      o.contents := by
    funext i
    split_ifs with hi
    · simp [Obj.words, hi]
    · rfl
  rw [setWords, hcontents]

lemma put_self (ha : s.objs a = some o) : s.put a o = s := by
  rw [St.put, ← ha, Function.update_eq_self]

/-- A new object leaves the words of the others. -/
lemma hasWords_object {t p : ℕ} {ws' : List ℕ} (h : object s t ws' = some (s', p))
    (ha : HasWords s a ws) (hne : a ≠ s.next) : HasWords s' a ws := by
  rw [object] at h
  obtain ⟨s₁, h1, h2⟩ := Option.map_eq_some_iff.mp h
  obtain ⟨rfl, -⟩ := Prod.mk.inj h2
  obtain ⟨o, h3, rfl⟩ := Option.map_eq_some_iff.mp h1
  have ha' : HasWords ((⟨s.objs, s.next + 8⟩ : St).put s.next (.ofWords 0 t ws')) a ws := by
    rw [HasWords, put_objs_of_ne _ hne]
    exact ha
  by_cases heq : a = t
  · subst heq
    rw [HasWords, h3] at ha'
    rw [HasWords, put_objs_self]
    exact ha'
  · rw [HasWords, put_objs_of_ne _ heq]
    exact ha'

/-- **`num_to_str`** -/
lemma View.numToStr (hv : View s₀ s d T) (hs : Sane s₀) (hstr : s₀.objs ty.stringType = some o)
    (ha : HasWords s a ws) (hlt : a < s.next) {str : List ℕ}
    (hnum : Bignum.numToStr ws = some (str, ws)) :
    ∃ s', numToStr ty s a = some (s', s.next) ∧ s'.next = s.next + 8 ∧
      View s₀ s' (d + Pi.single ty.stringType 1)
        (Function.update T s.next (some (.ofWords 0 ty.stringType str))) := by
  obtain ⟨s₁, h1, hn₁, h2⟩ := hv.object hs hstr []
  obtain ⟨n, h3, rfl⟩ := Option.map_eq_some_iff.mp (hasWords_object h1 ha hlt.ne)
  obtain ⟨s₂, h4, hn₂, h5⟩ := h2.appendWords hs hv.next (Function.update_self ..) str
  rw [Function.update_idem, List.nil_append] at h5
  refine ⟨s₂, ?_, hn₂.trans hn₁, h5⟩
  rw [Store.numToStr, h1, Option.bind_some]
  dsimp only
  rw [h3, Option.bind_some, hnum, Option.bind_some]
  dsimp only
  rw [setWords_words, put_self h3, h4]

/-- **`word_to_num`** -/
lemma View.wordToNum (hv : View s₀ s d T) (hs : Sane s₀) (hnum : s₀.objs ty.numType = some o)
    (w : ℕ) : ∃ s', wordToNum ty s w = some (s', s.next) ∧ s'.next = s.next + 8 ∧
      View s₀ s' (d + Pi.single ty.numType 1)
        (Function.update T s.next (some (.ofWords 0 ty.numType [w, 0]))) := by
  obtain ⟨s₁, h1, hn₁, h2⟩ := hv.object hs hnum []
  have h3 := h2.put (a := s.next) hv.next (by omega) (.ofWords 0 ty.numType [w, 0])
  rw [Function.update_idem] at h3
  refine ⟨s₁.put s.next (.ofWords 0 ty.numType [w, 0]), ?_, hn₁, h3⟩
  have hobj : { ((Obj.ofWords 0 ty.numType []).setWord 0 w).setWord 1 0 with size := 2 } =
      Obj.ofWords 0 ty.numType [w, 0] := by
    simp only [Obj.ofWords, Obj.setWord, Obj.mk.injEq, true_and, List.length_cons, List.length_nil]
    funext i
    rcases i with _ | _ | i <;> simp
  rw [Store.wordToNum, h1, Option.bind_some]
  dsimp only
  rw [h2.new _ hv.next, Function.update_self, Option.map_some, hobj]

/-! ### Elements -/

/-- What is printed of a number. -/
def printed (ws : List ℕ) : List ℕ := ((Bignum.numToStr ws).map Prod.fst).getD []

/-- What stands for an element in the text. -/
def elementText (s : St) (exp : ℕ) : List ℕ :=
  (((s.objs exp).bind fun e => (s.objs e.type).map fun t =>
    if t.words = chars "num" then printed e.words
    else if t.words = chars "bco" then printed [contentsWord exp, 0]
    else if t.words = chars "str" then e.words
    else printed [exp, 0])).getD []

/-- The text of a flat list: its elements, each with a blank behind. -/
def listText (s : St) (as : List ℕ) : List ℕ := as.flatMap fun exp => elementText s exp ++ [32]

lemma listText_cons (s : St) (a : ℕ) (as : List ℕ) :
    listText s (a :: as) = elementText s a ++ [32] ++ listText s as := rfl

/-- An object that has a type; a number has two words or more. -/
structure Element (s : St) (exp : ℕ) : Prop where
  lt : exp < wordMod
  typed : ∃ x name, s.objs exp = some x ∧ HasWords s x.type name ∧
    (name = chars "num" → Words x.words ∧ 2 ≤ x.words.length)

lemma elementText_eq {name : List ℕ} (ha : s.objs a = some x) (hname : HasWords s x.type name) :
    elementText s a = if name = chars "num" then printed x.words
      else if name = chars "bco" then printed [contentsWord a, 0]
      else if name = chars "str" then x.words else printed [a, 0] := by
  obtain ⟨t, h1, rfl⟩ := Option.map_eq_some_iff.mp hname
  rw [elementText, ha, Option.bind_some, h1]
  rfl

lemma printed_eq (hw : Words ws) (hlen : 2 ≤ ws.length) :
    Bignum.numToStr ws = some (printed ws, ws) := by
  obtain ⟨str, h⟩ := exists_numToStr hw hlen
  rw [printed, h]
  rfl

lemma printed_word (hw : w < wordMod) :
    Bignum.numToStr [w, 0] = some (printed [w, 0], [w, 0]) := by
  refine printed_eq (fun v hv => ?_) le_rfl
  rcases List.mem_pair.mp hv with rfl | rfl
  · exact hw
  · decide

/-- What is made and freed again leaves the other objects. -/
lemma update_gone {p : ℕ} (hp : T p = none) (hne : p ≠ a) (v v' : Option Obj) :
    Function.update (Function.update (Function.update T p v) a v') p none =
      Function.update T a v' := by
  have hself : Function.update T p none = T := by rw [← hp, Function.update_eq_self]
  rw [Function.update_comm hne.symm, Function.update_idem, hself]

/-- The state before `comp_expr`, with the references that the types have. -/
structure Ready (s : St) (ty : Types) (k : ℕ) : Prop where
  sane : Sane s
  typed : Typed s ty
  string : Kept s k ty.stringType
  num : Kept s k ty.numType
  array : Kept s k ty.arrayType
  subarray : Kept s k ty.subarrayType
  bcode : Kept s k ty.bcodeType

variable (setDelete n) in
/-- The string of a word is made; the number that it is printed from is freed. -/
lemma View.wordToStr (hv : View s₀ s d T) (hr : Ready s₀ ty k) (hw : w < wordMod)
    (hd : ∀ c, d c + 1 ≤ k) : ∃ s', wordToStr ty setDelete (n + 2) s w = some (s', s.next + 8) ∧
      s'.next = s.next + 16 ∧ View s₀ s' (d + Pi.single ty.stringType 1)
        (Function.update T (s.next + 8) (some (.ofWords 0 ty.stringType (printed [w, 0])))) := by
  obtain ⟨o₁, hnum, h0₁, hk₁⟩ := hr.num
  obtain ⟨o₂, hstr, -⟩ := hr.string
  have hnext := hv.next
  obtain ⟨s₁, h1, hn₁, h2⟩ := hv.wordToNum hr.sane hnum w
  have hwords : HasWords s₁ s.next [w, 0] := by
    rw [HasWords, h2.new _ hnext, Function.update_self, Option.map_some, words_ofWords]
  obtain ⟨s₂, h3, hn₂, h4⟩ := h2.numToStr hr.sane hstr hwords (by omega) (printed_word hw)
  rw [hn₁] at h3 hn₂ h4
  rw [add_right_comm] at h4
  have hget : Function.update (Function.update T s.next (some (.ofWords 0 ty.numType [w, 0])))
      (s.next + 8) (some (.ofWords 0 ty.stringType (printed [w, 0]))) s.next =
      some (.ofWords 0 ty.numType [w, 0]) := by
    rw [Function.update_of_ne (by omega), Function.update_self]
  have hle : (d + Pi.single ty.stringType 1 : ℕ → ℕ) ty.numType ≤ k := by
    have := hd ty.numType
    rw [Pi.add_apply, Pi.single_apply]
    split_ifs <;> omega
  obtain ⟨s₃, h5, hn₃, h6⟩ := h4.oDel_leaf ty n setDelete hr.sane hr.typed hnext hget hr.typed.num
    (by decide) hnum (wadd_ne_zero h0₁ hk₁ hle)
  rw [update_gone (hv.free _ le_rfl) (by omega)] at h6
  refine ⟨s₃, ?_, by rw [hn₃, hn₂], h6⟩
  rw [Store.wordToStr, h1, Option.bind_some]
  dsimp only
  rw [h3, Option.bind_some]
  dsimp only
  rw [h5]
  rfl

variable (setDelete n) in
/-- The string of an element: the element itself, or a new one. -/
lemma View.elementStr (hv : View s₀ s d T) (hr : Ready s₀ ty k) (he : Element s₀ a)
    (hd : ∀ c, d c + 1 ≤ k) : ∃ s' p, elementStr ty setDelete (n + 2) s a = some (s', p) ∧
      s.next ≤ s'.next ∧ ((p = a ∧ s' = s ∧ HasWords s a (elementText s₀ a)) ∨
        (s.next ≤ p ∧ View s₀ s' (d + Pi.single ty.stringType 1)
          (Function.update T p (some (.ofWords 0 ty.stringType (elementText s₀ a)))))) := by
  obtain ⟨x, name, hx, hname, hnum⟩ := he.typed
  obtain ⟨o, hstr, -⟩ := hr.string
  have hlt := hr.sane.lt hx
  have hnext := hv.next
  have hname' := hv.hasWords hr.sane hname
  have htype : ∀ t nm, HasWords s₀ t nm →
      Store.isType s (x.incr (d a)) t = some (decide (name = nm)) :=
    fun t nm h => isType_eq hname' (hv.hasWords hr.sane h)
  rw [Store.elementStr, hv.get hr.sane hx, Option.bind_some, htype _ _ hr.typed.num,
    Option.bind_some, htype _ _ hr.typed.bcode, Option.bind_some, htype _ _ hr.typed.string,
    Option.bind_some, elementText_eq hx hname]
  by_cases hn : name = chars "num"
  · obtain ⟨hw, hlen⟩ := hnum hn
    have hwords : HasWords s a x.words := by
      rw [HasWords, hv.get hr.sane hx]
      rfl
    obtain ⟨s', h1, h2, h3⟩ := hv.numToStr hr.sane hstr hwords (by omega) (printed_eq hw hlen)
    rw [if_pos (by simpa using hn), if_pos hn]
    exact ⟨s', _, h1, by omega, .inr ⟨le_rfl, h3⟩⟩
  · rw [if_neg (by simpa using hn), if_neg hn]
    by_cases hb : name = chars "bco"
    · have hw : contentsWord a < wordMod := by
        have := he.lt
        have hmod : 32 < wordMod := by decide
        unfold contentsWord
        omega
      obtain ⟨s', h1, h2, h3⟩ := hv.wordToStr n setDelete hr hw hd
      rw [if_pos (by simpa using hb), if_pos hb]
      exact ⟨s', _, h1, by omega, .inr ⟨by omega, h3⟩⟩
    · rw [if_neg (by simpa using hb), if_neg hb]
      by_cases hs : name = chars "str"
      · rw [if_pos (by simpa using hs), if_pos hs]
        refine ⟨s, a, rfl, le_rfl, .inl ⟨rfl, rfl, ?_⟩⟩
        rw [HasWords, hv.get hr.sane hx]
        rfl
      · obtain ⟨s', h1, h2, h3⟩ := hv.wordToStr n setDelete hr he.lt hd
        rw [if_neg (by simpa using hs), if_neg hs]
        exact ⟨s', _, h1, by omega, .inr ⟨by omega, h3⟩⟩

variable (setDelete n) in
/-- **One round** of the loop: the string of the element is appended, and is freed if it is new. -/
lemma View.appendElement (hv : View s₀ s d T) (hr : Ready s₀ ty k) (he : Element s₀ a)
    (hc : s₀.next ≤ c) (hT : T c = some (.ofWords 0 ty.stringType ws)) (hd : ∀ c, d c + 1 ≤ k) :
    ∃ s₁ p, Store.elementStr ty setDelete (n + 2) s a = some (s₁, p) ∧ ∃ t, s₁.objs p = some t ∧
      ∃ s₂, Store.appendWords t.words s₁ c = some (s₂, c) ∧
      ∃ s₃, objectAppendWord s₂ c 32 = some (s₃, c) ∧
      ∃ s', (if p ≠ a then oDel ty setDelete (n + 2) s₃ p else some s₃) = some s' ∧
        s.next ≤ s'.next ∧ View s₀ s' d (Function.update T c
          (some (.ofWords 0 ty.stringType (ws ++ (elementText s₀ a ++ [32]))))) := by
  have hlt := hv.lt_next hT
  obtain ⟨s₁, p, h1, hn₁, h2⟩ := hv.elementStr n setDelete hr he hd
  refine ⟨s₁, p, h1, ?_⟩
  rw [← List.append_assoc]
  rcases h2 with ⟨rfl, rfl, h2⟩ | ⟨hp, h2⟩
  · obtain ⟨t, h3, h4⟩ := Option.map_eq_some_iff.mp h2
    rw [← h4]
    obtain ⟨s₂, h5, hn₂, h6⟩ := hv.appendWords hr.sane hc hT t.words
    obtain ⟨s₃, h7, hn₃, h8⟩ := h6.appendWord hr.sane hc (Function.update_self ..) 32
    rw [Function.update_idem] at h8
    exact ⟨t, h3, s₂, h5, s₃, h7, s₃, if_neg (not_not.mpr rfl), by omega, h8⟩
  · obtain ⟨x, -, hx, -⟩ := he.typed
    have hold := hr.sane.lt hx
    have hnext := hv.next
    obtain ⟨o, hstr, h0, hk⟩ := hr.string
    have hcp : c ≠ p := by omega
    have hT₁ : Function.update T p (some (.ofWords 0 ty.stringType (elementText s₀ a))) c =
        some (.ofWords 0 ty.stringType ws) := by
      rw [Function.update_of_ne hcp, hT]
    obtain ⟨s₂, h5, hn₂, h6⟩ := h2.appendWords hr.sane hc hT₁ (elementText s₀ a)
    obtain ⟨s₃, h7, hn₃, h8⟩ := h6.appendWord hr.sane hc (Function.update_self ..) 32
    rw [Function.update_idem] at h8
    obtain ⟨s₄, h9, hn₄, h10⟩ := h8.oDel_leaf ty n setDelete hr.sane hr.typed (hnext.trans hp)
      (by rw [Function.update_of_ne hcp.symm, Function.update_self]) hr.typed.string (by decide)
      hstr (wadd_ne_zero h0 hk (by have := hd ty.stringType; omega))
    rw [update_gone (hv.free p hp) hcp.symm] at h10
    refine ⟨.ofWords 0 ty.stringType (elementText s₀ a), ?_, s₂, ?_, s₃, h7, s₄, ?_, by omega, h10⟩
    · rw [h2.new p (hnext.trans hp), Function.update_self]
    · rw [words_ofWords]
      exact h5
    · rw [if_pos (by omega), h9]

variable (setDelete n) in
/-- **The loop** of `comp_expr` makes the text of the list. -/
lemma View.exprLoop (hv : View s₀ s d T) (hr : Ready s₀ ty k) (pre : List ℕ)
    (hl : ListAt T a b ty.arrayType ty.subarrayType 1 (pre ++ as)) (ha : s₀.next ≤ a)
    (hb : s₀.next ≤ b) (hc : s₀.next ≤ c) (hT : T c = some (.ofWords 0 ty.stringType ws))
    (hca : c ≠ a) (hcb : c ≠ b) (hel : ∀ e ∈ as, Element s₀ e) (hd : ∀ c, d c + 1 ≤ k) :
    ∃ s', Store.exprLoop ty setDelete (n + 2) a as.length pre.length s c = some (s', c) ∧
      s.next ≤ s'.next ∧ View s₀ s' d (Function.update T c
        (some (.ofWords 0 ty.stringType (ws ++ listText s₀ as)))) := by
  induction as generalizing s T ws pre with
  | nil =>
    refine ⟨s, rfl, le_rfl, ?_⟩
    rw [listText, List.flatMap_nil, List.append_nil, ← hT, Function.update_eq_self]
    exact hv
  | cons e as ih =>
    obtain ⟨s₁, p, h1, t, h2, s₂, h3, s₃, h4, s₄, h5, hn₄, h6⟩ :=
      hv.appendElement n setDelete hr (hel e List.mem_cons_self) hc hT hd
    have hl' : ListAt (Function.update T c
        (some (.ofWords 0 ty.stringType (ws ++ (elementText s₀ e ++ [32]))))) a b ty.arrayType
        ty.subarrayType 1 (pre ++ [e] ++ as) := by
      refine ⟨?_, ?_, hl.ne⟩
      · rw [Function.update_of_ne hca.symm, hl.list]
      · rw [Function.update_of_ne hcb.symm, hl.elems, List.append_assoc, List.singleton_append]
    obtain ⟨s₅, h7, hn₅, h8⟩ := ih h6 (pre ++ [e]) hl' (Function.update_self ..)
      fun e' he' => hel e' (List.mem_cons_of_mem _ he')
    rw [Function.update_idem, List.append_assoc, ← listText_cons] at h8
    refine ⟨s₅, ?_, hn₄.trans hn₅, h8⟩
    have hidx : objArrayIdx s a pre.length = some e := by
      rw [objArrayIdx, hv.new a ha, hl.list, Option.bind_some, listObj_contents, hv.new b hb,
        hl.elems, Option.map_some]
      simp [Obj.ofWords]
    rw [List.length_append, List.length_singleton] at h7
    rw [List.length_cons, Store.exprLoop, hidx, Option.bind_some, h1, Option.bind_some]
    dsimp only
    rw [h2, Option.bind_some, h3, Option.bind_some]
    dsimp only
    rw [h4, Option.bind_some]
    dsimp only
    rw [h5, Option.bind_some, h7]

/-! ### Expressions -/

/-- The list at `val`, whose leaves are `as`. -/
structure ListVal (s : St) (ty : Types) (val : ℕ) (as : List ℕ) : Prop where
  leaves : ∃ o x, s.objs val = some o ∧ s.objs (o.contents 0) = some x ∧ Leaves s ty x.words as
  element : ∀ e ∈ as, Element s e
  kept : ∀ e ∈ as, Kept s (as.length + 4) e

/-- **The list** that `comp_expr` makes of the leaves. -/
lemma flattened (hr : Ready s ty k) (hval : ListVal s ty a as) :
    ∃ N, ∀ n, N ≤ n → ∃ s' T, objArrayFlatten ty n s a = some (s', s.next + 8) ∧
      s'.next = s.next + 16 ∧
      View s s' (count as + Pi.single ty.subarrayType 1 + Pi.single ty.arrayType 1) T ∧
      ListAt T (s.next + 8) s.next ty.arrayType ty.subarrayType 1 as ∧
      ∀ c, c ≠ s.next → c ≠ s.next + 8 → T c = none := by
  obtain ⟨o, x, ho, hx, hl⟩ := hval.leaves
  obtain ⟨o₁, hsub, -⟩ := hr.subarray
  obtain ⟨o₂, harr, -⟩ := hr.array
  obtain ⟨s₁, h1, hn₁, h2⟩ := (View.refl hr.sane).objArray hr.sane hsub harr
  obtain ⟨N, hN⟩ := hl.flatten hr.sane (a := s.next + 8) (b := s.next) ty.arrayType
    ty.subarrayType 1 (by omega) le_rfl
  have hlist : ListAt (Function.update (Function.update (fun _ => none) s.next
      (some (.ofWords 1 ty.subarrayType []))) (s.next + 8) (some (listObj ty.arrayType s.next)))
      (s.next + 8) s.next ty.arrayType ty.subarrayType 1 [] := by
    refine ⟨Function.update_self .., ?_, by omega⟩
    rw [Function.update_of_ne (by omega), Function.update_self]
  refine ⟨N + 1, fun n hn => ?_⟩
  obtain ⟨m, rfl⟩ : ∃ m, n = m + 1 := ⟨n - 1, by omega⟩
  have hwords : x.words = (List.range' 0 x.size).map x.contents := by
    rw [Obj.words, List.range_eq_range']
  obtain ⟨s₂, h3, hn₂, h4⟩ := hN m (by omega) h2 hlist ho hx hwords
  refine ⟨s₂, _, ?_, hn₂.trans hn₁, ?_, hlist.elems_update _, fun c hc hc' => ?_⟩
  · rw [objArrayFlatten, h1, Option.bind_some]
    dsimp only
    rw [Store.flatten, h2.size hr.sane ho hx, Option.bind_some, h3]
    rfl
  · rw [zero_add, add_comm _ (count as), ← add_assoc] at h4
    exact h4
  · rw [Function.update_of_ne hc, Function.update_of_ne hc', Function.update_of_ne hc]

variable (setDelete n) in
/-- **The text** that `comp_expr` makes of the list, which is freed. -/
lemma View.text {c : ℕ} (hv : View s₀ s (count as + Pi.single ty.subarrayType 1 +
      Pi.single ty.arrayType 1) T) (hr : Ready s₀ ty (as.length + 4))
    (hl : ListAt T a b ty.arrayType ty.subarrayType 1 as) (ha : s₀.next ≤ a) (hb : s₀.next ≤ b)
    (hrest : ∀ c, c ≠ b → c ≠ a → T c = none) (hel : ∀ e ∈ as, Element s₀ e)
    (hkept : ∀ e ∈ as, Kept s₀ (as.length + 4) e) (hc : c = s.next) :
    ∃ s₁, Store.object s ty.stringType [] = some (s₁, c) ∧ objArraySize s₁ a = some as.length ∧
      ∃ s₂, Store.exprLoop ty setDelete (n + 2) a as.length 0 s₁ c = some (s₂, c) ∧
      ∃ s₃, oDel ty setDelete (n + 2) s₂ a = some s₃ ∧
        s₃.objs c = some (.ofWords 0 ty.stringType (listText s₀ as)) ∧
      ∃ s', oDel ty setDelete (n + 2) s₃ c = some s' ∧ View s₀ s' 0 fun _ => none := by
  have hnext := hv.next
  have hlt₁ := hv.lt_next hl.list
  have hlt₂ := hv.lt_next hl.elems
  have hle : ∀ c, count as c ≤ as.length := fun c => List.count_le_length
  have hone : ∀ t c, (Pi.single t 1 : ℕ → ℕ) c ≤ 1 := fun t c => by
    rw [Pi.single_apply]
    split_ifs <;> omega
  subst hc
  obtain ⟨o, hstr, h0, hk⟩ := hr.string
  obtain ⟨s₁, h1, hn₁, h2⟩ := hv.object hr.sane hstr []
  have hl₁ : ListAt (Function.update T s.next (some (.ofWords 0 ty.stringType []))) a b
      ty.arrayType ty.subarrayType 1 as := by
    refine ⟨?_, ?_, hl.ne⟩
    · rw [Function.update_of_ne (by omega), hl.list]
    · rw [Function.update_of_ne (by omega), hl.elems]
  refine ⟨s₁, h1, ?_, ?_⟩
  · rw [objArraySize, h2.new a ha, hl₁.list, Option.bind_some, listObj_contents, h2.new b hb,
      hl₁.elems]
    rfl
  obtain ⟨s₂, h3, hn₂, h4⟩ := h2.exprLoop n setDelete hr [] hl₁ ha hb hnext
    (Function.update_self ..) (by omega) (by omega) hel fun c => by
      have := hle c
      have := hone ty.subarrayType c
      have := hone ty.arrayType c
      have := hone ty.stringType c
      simp only [Pi.add_apply]
      omega
  rw [Function.update_idem, List.nil_append] at h4
  refine ⟨s₂, h3, ?_⟩
  -- the list is freed
  have hl₂ : ListAt (Function.update T s.next
      (some (.ofWords 0 ty.stringType (listText s₀ as)))) a b ty.arrayType ty.subarrayType 1
      as := by
    refine ⟨?_, ?_, hl.ne⟩
    · rw [Function.update_of_ne (by omega), hl.list]
    · rw [Function.update_of_ne (by omega), hl.elems]
  have h5 : View s₀ s₂ (Pi.single ty.stringType 1 + count as + Pi.single ty.subarrayType 1 +
      Pi.single ty.arrayType 1) (Function.update T s.next
        (some (.ofWords 0 ty.stringType (listText s₀ as)))) := by
    rwa [add_comm (Pi.single ty.stringType 1) (count as), add_right_comm (count as),
      add_right_comm _ (Pi.single ty.stringType 1)]
  obtain ⟨s₃, h6, hn₃, h7⟩ := h5.oDel_list n setDelete hr.sane hr.typed hl₂ ha hb hkept
    hr.subarray hr.array fun c => by
      have := hone ty.stringType c
      omega
  refine ⟨s₃, h6, ?_, ?_⟩
  · rw [h7.new _ hnext, Function.update_of_ne (by omega), Function.update_of_ne (by omega),
      Function.update_self]
  -- and the string
  rw [← zero_add (Pi.single ty.stringType 1)] at h7
  obtain ⟨s₄, h9, hn₄, h10⟩ := h7.oDel_leaf ty n setDelete hr.sane hr.typed hnext
    (by rw [Function.update_of_ne (by omega), Function.update_of_ne (by omega),
      Function.update_self]) hr.typed.string (by decide) hstr (wadd_ne_zero h0 hk (Nat.zero_le _))
  refine ⟨s₄, h9, ?_⟩
  convert h10 using 1
  funext x
  simp only [Function.update_apply]
  split_ifs with h1 h2 h3
  · rfl
  · rfl
  · rfl
  · exact (hrest x h2 h3).symm

variable (setDelete) in
/-- **What `comp_expr` does**: it makes the text, and an object of what the assembler returns. -/
lemma compExpr_eq (hr : Ready s ty (as.length + 4)) (hval : ListVal s ty a as) :
    ∃ N, ∀ n, N ≤ n →
      (Asm.compile (listText s as) = none → compExpr ty setDelete n s a = none) ∧
      ∀ ws, Asm.compile (listText s as) = some ws → ∃ s' r,
        compExpr ty setDelete n s a = some (s', r) ∧ s.next ≤ r ∧
          View s s' (Pi.single ty.bcodeType 1) (Function.update (fun _ => none) r
            (some (.ofWords 0 ty.bcodeType (ws ++ [0])))) := by
  obtain ⟨N, hN⟩ := flattened hr hval
  refine ⟨N + 2, fun n hn => ?_⟩
  obtain ⟨m, rfl⟩ : ∃ m, n = m + 2 := ⟨n - 2, by omega⟩
  obtain ⟨s₁, T, h1, hn₁, h2, hl, hrest⟩ := hN (m + 2) (by omega)
  obtain ⟨s₂, h3, h4, s₃, h5, s₄, h6, h7, s₅, h8, h9⟩ := h2.text m setDelete hr hl (by omega)
    le_rfl hrest hval.element hval.kept rfl
  obtain ⟨o, hbc, -⟩ := hr.bcode
  have hrun : compExpr ty setDelete (m + 2) s a = (Asm.compile (listText s as)).bind fun bc =>
      (object s₅ ty.bcodeType bc).bind fun p => (p.1.objs p.2).map fun r =>
        (p.1.put p.2 { r.setWord bc.length 0 with size := r.size + 1 }, p.2) := by
    rw [compExpr, h1, Option.bind_some]
    dsimp only
    rw [h3, Option.bind_some]
    dsimp only
    rw [h4, Option.bind_some, h5, Option.bind_some]
    dsimp only
    rw [h6, Option.bind_some, h7, Option.bind_some, words_ofWords, h8, Option.bind_some]
  rw [hrun]
  refine ⟨fun h => by rw [h, Option.bind_none], fun ws h => ?_⟩
  obtain ⟨s₆, h10, hn₆, h11⟩ := h9.object hr.sane hbc ws
  have hget := h11.new _ h9.next
  rw [Function.update_self] at hget
  have h12 := h11.put (a := s₅.next) h9.next (by omega) (.ofWords 0 ty.bcodeType (ws ++ [0]))
  rw [Function.update_idem, zero_add] at h12
  refine ⟨_, _, ?_, h9.next, h12⟩
  rw [h, Option.bind_some, h10, Option.bind_some]
  dsimp only
  rw [hget, Option.map_some]
  exact congrArg (fun o => some (s₆.put s₅.next o, s₅.next)) (appended_ofWords ..)

/-- `comp_expr` of the list at `val` comes to an end. When the assembler rejects the text, nothing
is left behind; else there is one object more, with the words and a zero, and no other changes but
for the reference to its type. -/
def Survives (s : St) (ty : Types) (setDelete : St → ℕ → Option St) (val : ℕ)
    (text : List ℕ) : Prop :=
  ∃ N, ∀ n, N ≤ n → ∃ s' r, compExpr ty setDelete n s val = some (s', r) ∧
    (Asm.compile text = none → s'.objs = s.objs) ∧
    ∀ ws, Asm.compile text = some ws →
      s'.objs r = some (.ofWords 0 ty.bcodeType (ws ++ [0])) ∧ s.objs r = none ∧
        ∀ a, a ≠ r → s'.objs a = if a = ty.bcodeType then (s.objs a).map (Obj.incr 1) else s.objs a

/-- **`comp_expr` survives** exactly the texts that the assembler accepts. -/
theorem survives_iff (setDelete : St → ℕ → Option St) (hr : Ready s ty (as.length + 4))
    (hval : ListVal s ty a as) :
    Survives s ty setDelete a (listText s as) ↔ (Asm.compile (listText s as)).isSome = true := by
  obtain ⟨N, hN⟩ := compExpr_eq setDelete hr hval
  constructor
  · rintro ⟨N', h⟩
    by_contra hnone
    obtain ⟨s', r, h1, -⟩ := h (max N N') (le_max_right ..)
    rw [(hN _ (le_max_left ..)).1 (by simpa using hnone)] at h1
    cases h1
  · intro hsome
    obtain ⟨ws, hws⟩ := Option.isSome_iff_exists.mp hsome
    refine ⟨N, fun n hn => ?_⟩
    obtain ⟨s', r, h1, hr', h2⟩ := (hN n hn).2 ws hws
    refine ⟨s', r, h1, fun h0 => absurd (hws.symm.trans h0) (by simp), fun ws' hws' => ?_⟩
    obtain rfl := Option.some.inj (hws.symm.trans hws')
    refine ⟨by rw [h2.new r hr', Function.update_self], hr.sane.fresh r hr', fun b hb => ?_⟩
    obtain ⟨o, hbc, -⟩ := hr.bcode
    have hbclt := hr.sane.lt hbc
    rcases Nat.lt_or_ge b s.next with hlt | hge
    · rw [h2.old b hlt, Pi.single_apply]
      split_ifs with heq
      · rfl
      · cases hb' : s.objs b with
        | none => rfl
        | some x => exact congrArg some (incr_zero (hr.sane.count b x hb'))
    · rw [h2.new b hge, Function.update_of_ne hb, if_neg (by omega), hr.sane.fresh b hge]

/-- Objects at the addresses from 1 on. -/
def ofObjs (os : List Obj) : St := ⟨fun a => if a = 0 then none else os[a - 1]?, os.length + 1⟩

lemma sane_ofObjs {os : List Obj} (h : ∀ o ∈ os, o.refcount < wordMod) : Sane (ofObjs os) where
  null := rfl
  pos := Nat.succ_pos _
  fresh a ha := by
    have hlen : os.length + 1 ≤ a := ha
    change (if a = 0 then none else os[a - 1]?) = none
    rw [if_neg (by omega), List.getElem?_eq_none (by omega)]
  count a o ho := by
    change (if a = 0 then none else os[a - 1]?) = some o at ho
    split_ifs at ho
    exact h o (List.mem_of_getElem? ho)

/-- The types, and a list of one name. -/
def oneName (name : List ℕ) : St :=
  ofObjs ((["str", "num", "arr", "sar", "set", "fun", "cel", "bco"].map fun t =>
    Obj.ofWords 20 1 (chars t)) ++
      [listObj 3 10, .ofWords 1 4 [11], .ofWords 1 1 name])

def oneTypes : Types := ⟨1, 2, 3, 4, 5, 6, 7, 8⟩

lemma oneName_ready (name : List ℕ) : Ready (oneName name) oneTypes 5 := by
  refine ⟨sane_ofObjs ?_, ⟨?_, ?_, ?_, ?_, ?_, ?_, ?_, ?_⟩, ?_, ?_, ?_, ?_, ?_⟩
  · simp [Obj.ofWords, listObj, Obj.setWord, wordMod]
  all_goals first | exact congrArg some (words_ofWords ..) | exact ⟨_, rfl, by decide, by decide⟩

lemma oneName_list (name : List ℕ) : ListVal (oneName name) oneTypes 9 [11] := by
  have hget : (oneName name).objs 11 = some (.ofWords 1 1 name) := rfl
  have htype : HasWords (oneName name) (Obj.ofWords 1 1 name).type (chars "str") :=
    (oneName_ready name).typed.string
  refine ⟨⟨_, _, rfl, rfl, ?_⟩, fun e he => ?_, fun e he => ?_⟩
  · rw [words_ofWords]
    exact .leaf hget ((isType_eq htype (oneName_ready name).typed.array).trans (by decide)) .nil
  · obtain rfl := List.mem_singleton.mp he
    exact ⟨by decide, _, _, hget, htype, fun h => absurd h (by decide)⟩
  · obtain rfl := List.mem_singleton.mp he
    exact ⟨_, hget, Nat.one_pos, (by decide : 1 + 5 < wordMod)⟩

lemma oneName_text (name : List ℕ) : listText (oneName name) [11] = name ++ [32] := by
  have h := elementText_eq (s := oneName name) (a := 11) rfl (oneName_ready name).typed.string
  rw [listText_cons, h, if_neg (by decide), if_neg (by decide), if_pos rfl, words_ofWords]
  exact List.append_nil _

/-- A list of a number. -/
theorem survives_number : ∃ s ty val as, Ready s ty (as.length + 4) ∧ ListVal s ty val as ∧
    listText s as = chars "ff " ∧ Survives s ty (fun _ _ => none) val (listText s as) := by
  have htext : listText (oneName (chars "ff")) [11] = chars "ff " := oneName_text _
  refine ⟨oneName (chars "ff"), oneTypes, 9, [11], oneName_ready _, oneName_list _, htext,
    (survives_iff _ (oneName_ready _) (oneName_list _)).mpr ?_⟩
  rw [htext]
  decide

/-- The name of an instruction without its arguments. -/
theorem not_survives : ∃ s ty val as, Ready s ty (as.length + 4) ∧ ListVal s ty val as ∧
    listText s as = chars "jnc " ∧ ¬ Survives s ty (fun _ _ => none) val (listText s as) := by
  have htext : listText (oneName (chars "jnc")) [11] = chars "jnc " := oneName_text _
  have hnone : Asm.compile (chars "jnc ") = none := by decide
  refine ⟨oneName (chars "jnc"), oneTypes, 9, [11], oneName_ready _, oneName_list _, htext, ?_⟩
  rw [htext]
  rintro ⟨N', h⟩
  obtain ⟨N, hN⟩ := compExpr_eq (fun _ _ => none) (oneName_ready (chars "jnc")) (oneName_list _)
  obtain ⟨s', r, h1, -⟩ := h (max N N') (le_max_right ..)
  rw [(hN _ (le_max_left ..)).1 (htext ▸ hnone)] at h1
  cases h1

end LispMachine.CompExpr
