import LispMachine.DeleteExact
import LispMachine.Mutate
import LispMachine.Lib.Run

/-!
Programs that create objects, hold and store references, drop them and collect: whatever they do,
the counts stay exact, so that what is held stays.
-/

namespace LispMachine.MutateRuns

open LispMachine.Memory LispMachine.Collect LispMachine.CollectMark LispMachine.CollectSweep
open LispMachine.CollectExact LispMachine.Delete LispMachine.DeleteExact LispMachine.Mutate
open LispMachine.Lib.Marking LispMachine.Lib.Run LispMachine.Lib.BalTree
open LispMachine.Object (Types)
open LispMachine.Store (Obj objEq)

variable (ty : Types)

/-- The heap of a program that holds the references `ext`. -/
structure Good (L : Finset ℕ) (ext : ℕ → ℕ) (s : St) : Prop where
  exact : Exact ty L ext s
  typed : Typed ty s
  strings : ∀ p ∈ kinds ty, (s.objs p.1).map Obj.type = some ty.stringType
  unheld : ∀ a, s.objs a = none → ext a = 0
  fresh : ∀ a, s.next ≤ a → s.objs a = none
  pos : 0 < s.next

/-- The count of an object, 0 where there is none. -/
def rc (s : St) (a : ℕ) : ℕ := ((s.objs a).map Obj.refcount).getD 0

/-- The object at `obj` is new, or has other contents: it holds the references `l` now, and the
program holds `ext'`. -/
structure Change (ext : ℕ → ℕ) (s : St) (L : Finset ℕ) (obj : ℕ) (o : Obj) (l : List ℕ)
    (ext' : ℕ → ℕ) (s' : St) : Prop where
  self : s'.objs obj = some o
  others : ∀ a ≠ obj, (s'.objs a).map uncounted = (s.objs a).map uncounted
  types : ∀ p ∈ kinds ty, (s'.objs p.1).map uncounted = (s.objs p.1).map uncounted
  reads : refsOf ty s' o = some l
  mem : ∀ b ∈ l, b ≠ 0 → b ∈ insert obj L
  type : ∃ p ∈ kinds ty, o.type = p.1
  old : ∀ o₀, s.objs obj = some o₀ → o₀.type = o.type
  held : ∀ p ∈ kinds ty, 0 < ext' p.1
  trees : ∀ a ≠ obj, ∀ x, IsRoot ty s a x → s'.trees x = s.trees x
  roots : ∀ x, IsRoot ty s' obj x → ∀ a ≠ obj, ¬ IsRoot ty s a x
  count : ∀ a, s'.objs a ≠ none → rc s' a + (kidsOf ty s obj).count a + ext a =
    rc s a + (l.filter (· ≠ 0)).count a + (if s.objs obj = none ∧ o.type = a then 1 else 0) + ext' a
  small : ∀ a, rc s' a < 2 ^ 31
  storage : ∀ a A, s.objs a = some A → A.type = ty.subarrayType → rc s' a = A.refcount
  array : o.type = ty.arrayType → ∃ arr, s'.objs (o.contents 0) = some arr ∧
    arr.type = ty.subarrayType ∧ arr.refcount = 1
  gcSet : s'.gcSet.Nodup
  functions : ∀ x ∈ s'.gcSet, 8 ≤ x ∧ (s'.objs (x - 8)).map Obj.type = some ty.functionType
  num : s'.gcNumAlloced = s'.gcSet.length ∧ s'.gcSet.length < wordMod
  unheld : ∀ a, s'.objs a = none → ext' a = 0
  fresh : ∀ a, s'.next ≤ a → s'.objs a = none
  next : s.next ≤ s'.next
  null : obj ≠ 0

variable {ty} {L : Finset ℕ} {ext ext' : ℕ → ℕ} {s s' : St} {obj a b v x k : ℕ} {o o' : Obj}
  {l : List ℕ}

lemma count_cons' : (b :: l).count a = [b].count a + l.count a := by
  rw [← List.singleton_append, List.count_append]

lemma rc_eq (ho : s.objs a = some o) : rc s a = o.refcount := by rw [rc, ho]; rfl

/-- The kind of an object whose type is one of the eight -/
lemma Good.kind {c : Kind} (hg : Good ty L ext s)
    (htypes : ∀ p ∈ kinds ty, (s'.objs p.1).map uncounted = (s.objs p.1).map uncounted)
    (hmem : (o.type, c) ∈ kinds ty) : kindOf ty s'.toSt o = some c := by
  have hlive : s'.objs o.type ≠ none := fun h => by
    have hk := htypes _ hmem
    rw [h, Option.map_none, eq_comm, Option.map_eq_none_iff] at hk
    exact (hg.exact.live _).1 (hg.exact.types _ hmem).1 hk
  obtain ⟨t, ht⟩ := Option.ne_none_iff_exists'.1 hlive
  refine kindFrom_mem ht (hg.typed.differ.imp_of_mem fun {p q} hp hq hpq => ?_) hmem
  rw [← hpq]
  exact objEq_congr (htypes p hp) (htypes q hq)

namespace Change

variable (h : Change ty ext s L obj o l ext' s')
include h

lemma get (ha : a ≠ obj) (ho : s'.objs a = some o') :
    ∃ o₀, s.objs a = some o₀ ∧ uncounted o' = uncounted o₀ := by
  have hk := h.others a ha
  rw [ho, Option.map_some, eq_comm, Option.map_eq_some_iff] at hk
  obtain ⟨o₀, ho₀, heq⟩ := hk
  exact ⟨o₀, ho₀, heq.symm⟩

variable (hg : Good ty L ext s)
include hg

lemma live : a ∈ insert obj L ↔ s'.objs a ≠ none := by
  by_cases ha : a = obj
  · subst ha
    simp [h.self]
  · have hk := h.others a ha
    rw [Finset.mem_insert, or_iff_right ha, hg.exact.live, not_iff_not]
    exact ⟨fun hn => by simpa [hn] using hk, fun hn => by simpa [hn, eq_comm] using hk⟩

lemma kept_type {o₀ : Obj} (ho₀ : s.objs a = some o₀) :
    (s'.objs o₀.type).map uncounted = (s.objs o₀.type).map uncounted := by
  obtain ⟨p, hp, heq⟩ := hg.typed.typed a o₀ ho₀
  rw [heq]
  exact h.types p hp

lemma kind_eq {o₀ : Obj} (ho₀ : s.objs a = some o₀) (heq : uncounted o' = uncounted o₀) :
    kindOf ty s'.toSt o' = kindOf ty s.toSt o₀ :=
  kindOf_congr heq (h.kept_type hg ho₀) h.types

lemma refs_eq {o₀ : Obj} (ha : a ≠ obj) (ho₀ : s.objs a = some o₀)
    (heq : uncounted o' = uncounted o₀) : refsOf ty s' o' = refsOf ty s o₀ :=
  refsOf_eq heq (h.kind_eq hg ho₀ heq) fun hk => treeAt_congr fun hx =>
    h.trees a ha _ ⟨hx, o₀, ho₀, hk, rfl⟩

lemma isRoot (ha : a ≠ obj) (hr : IsRoot ty s' a x) : IsRoot ty s a x := by
  obtain ⟨hx, o', ho', hk, hc⟩ := hr
  obtain ⟨o₀, ho₀, heq⟩ := h.get ha ho'
  exact ⟨hx, o₀, ho₀, (h.kind_eq hg ho₀ heq).symm.trans hk, (uncounted_iff.1 heq).2.2 ▸ hc⟩

lemma kids_eq : kidsOf ty s' = Function.update (kidsOf ty s) obj (l.filter (· ≠ 0)) := by
  funext a
  by_cases ha : a = obj
  · subst ha
    rw [Function.update_self, kidsOf, h.self, Option.bind_some, h.reads, Option.getD_some]
  · rw [Function.update_of_ne ha, kidsOf, kidsOf]
    cases ho : s'.objs a with
    | none =>
      have hk := h.others a ha
      rw [ho, Option.map_none, eq_comm, Option.map_eq_none_iff] at hk
      rw [hk]
      rfl
    | some o' =>
      obtain ⟨o₀, ho₀, heq⟩ := h.get ha ho
      rw [ho₀, Option.bind_some, Option.bind_some, h.refs_eq hg ha ho₀ heq]

/-- The references of the object are exchanged. -/
lemma refs_add (a : ℕ) : refs (kidsOf ty s') (insert obj L) a + (kidsOf ty s obj).count a =
    refs (kidsOf ty s) L a + (l.filter (· ≠ 0)).count a := by
  have hsplit (kids : ℕ → List ℕ) : refs kids (insert obj L) a =
      (kids obj).count a + refs kids (L.erase obj) a := by
    rw [← Finset.insert_erase (Finset.mem_insert_self obj L), Finset.erase_insert_eq_erase,
      refs_insert (Finset.notMem_erase obj L)]
  have hold : refs (kidsOf ty s) L a = refs (kidsOf ty s) (insert obj L) a := by
    by_cases hobj : obj ∈ L
    · rw [Finset.insert_eq_of_mem hobj]
    · have hnone : s.objs obj = none := by
        by_contra hne
        exact hobj ((hg.exact.live obj).2 hne)
      rw [refs_insert hobj, kidsOf, hnone]
      simp
  have hsame : refs (kidsOf ty s') (L.erase obj) a = refs (kidsOf ty s) (L.erase obj) a :=
    refs_congr fun b hb => by
      rw [h.kids_eq hg, Function.update_of_ne (Finset.mem_erase.1 hb).1]
  rw [hold, hsplit, hsplit, hsame, h.kids_eq hg, Function.update_self]
  omega

/-- A new object refers to its type. -/
lemma typeRefs_add (a : ℕ) : typeRefs s' (insert obj L) a =
    typeRefs s L a + if s.objs obj = none ∧ o.type = a then 1 else 0 := by
  have htype (b : ℕ) (hb : b ≠ obj) : (s'.objs b).map Obj.type = (s.objs b).map Obj.type := by
    have hk := congrArg (Option.map Obj.type) (h.others b hb)
    rwa [Option.map_map, Option.map_map] at hk
  unfold typeRefs
  by_cases hobj : obj ∈ L
  · obtain ⟨o₀, ho₀⟩ := Option.ne_none_iff_exists'.1 ((hg.exact.live obj).1 hobj)
    have hself : (s'.objs obj).map Obj.type = (s.objs obj).map Obj.type := by
      rw [h.self, ho₀, Option.map_some, Option.map_some, h.old o₀ ho₀]
    rw [Finset.insert_eq_of_mem hobj, if_neg (by simp [ho₀]), Nat.add_zero]
    refine congrArg Finset.card (Finset.filter_congr fun b _ => ?_)
    by_cases hb : b = obj
    · rw [hb, hself]
    · rw [htype b hb]
  · have hnone : s.objs obj = none := by
      by_contra hne
      exact hobj ((hg.exact.live obj).2 hne)
    have hrest : L.filter (fun b => (s'.objs b).map Obj.type = some a) =
        L.filter fun b => (s.objs b).map Obj.type = some a :=
      Finset.filter_congr fun b hb => by rw [htype b (ne_of_mem_of_not_mem hb hobj)]
    rw [Finset.filter_insert, hrest, h.self, Option.map_some]
    by_cases ha : o.type = a
    · rw [if_pos (by rw [ha]),
        Finset.card_insert_of_notMem fun hf => hobj (Finset.mem_filter.1 hf).1,
        if_pos ⟨hnone, ha⟩]
    · rw [if_neg fun hs => ha (Option.some.inj hs), if_neg fun hs => ha hs.2, Nat.add_zero]

variable (obj o l) in
/-- **One change** keeps the counts exact. -/
theorem good : Good ty (insert obj L) ext' s' := by
  have hlive (a : ℕ) := h.live hg (a := a)
  have hsub : L ⊆ insert obj L := Finset.subset_insert obj L
  have htypes (p : ℕ × Kind) (hp : p ∈ kinds ty) : p.1 ∈ insert obj L ∧ 0 < ext' p.1 :=
    ⟨hsub (hg.exact.types p hp).1, h.held p hp⟩
  have htyped (a : ℕ) (o' : Obj) (ho' : s'.objs a = some o') : ∃ p ∈ kinds ty, o'.type = p.1 := by
    by_cases ha : a = obj
    · subst ha
      obtain rfl := Option.some.inj (h.self.symm.trans ho')
      exact h.type
    · obtain ⟨o₀, ho₀, heq⟩ := h.get ha ho'
      rw [(uncounted_iff.1 heq).1]
      exact hg.typed.typed a o₀ ho₀
  have hkind (a : ℕ) (o' : Obj) (ho' : s'.objs a = some o') : o'.refcount = rc s' a :=
    (rc_eq ho').symm
  have htype (a : ℕ) (ha : s.objs a ≠ none) :
      (s'.objs a).map Obj.type = (s.objs a).map Obj.type := by
    by_cases hao : a = obj
    · subst hao
      obtain ⟨o₀, ho₀⟩ := Option.ne_none_iff_exists'.1 ha
      rw [h.self, ho₀, Option.map_some, Option.map_some, h.old o₀ ho₀]
    · have hk := congrArg (Option.map Obj.type) (h.others a hao)
      rwa [Option.map_map, Option.map_map] at hk
  have hobj : obj ∉ L → s.objs obj = none := fun hno => by
    by_contra hne
    exact hno ((hg.exact.live obj).2 hne)
  refine ⟨⟨hlive, fun h0 => ?_, fun a ha => ?_, fun a b x ha hb => ?_, htypes, fun a o' ho' => ?_,
    fun a o' ho' => ?_, fun a o' ho' => hkind a o' ho' ▸ h.small a, h.gcSet, fun x hx => ?_, h.num⟩,
    ⟨?_, htyped, fun a o' ho' harray => ?_, fun x hx => (h.functions x hx).2⟩, fun p hp => ?_,
    h.unheld, h.fresh, hg.pos.trans_le h.next⟩
  · rcases Finset.mem_insert.1 h0 with h0 | h0
    · exact h.null h0.symm
    · exact hg.exact.null h0
  · by_cases hao : a = obj
    · subst hao
      refine ⟨o, l, h.self, h.reads, by rw [h.kids_eq hg, Function.update_self], fun b hb => ?_⟩
      rw [h.kids_eq hg, Function.update_self, List.mem_filter] at hb
      exact h.mem b hb.1 (of_decide_eq_true hb.2)
    · obtain ⟨o₀, l₀, ho₀, hl₀, hfilter, hL⟩ :=
        hg.exact.heap a ((Finset.mem_insert.1 ha).resolve_left hao)
      obtain ⟨o', ho'⟩ := Option.ne_none_iff_exists'.1 ((hlive a).1 ha)
      obtain ⟨o₁, ho₁, heq⟩ := h.get hao ho'
      obtain rfl := Option.some.inj (ho₁.symm.trans ho₀)
      rw [h.kids_eq hg, Function.update_of_ne hao]
      exact ⟨o', l₀, ho', (h.refs_eq hg hao ho₁ heq).trans hl₀, hfilter, fun b hb => hsub (hL b hb)⟩
  · by_cases hao : a = obj
    · by_cases hbo : b = obj
      · rw [hao, hbo]
      · subst hao
        exact absurd (h.isRoot hg hbo hb) (h.roots x ha b hbo)
    · by_cases hbo : b = obj
      · subst hbo
        exact absurd (h.isRoot hg hao ha) (h.roots x hb a hao)
      · exact hg.exact.distinct a b x (h.isRoot hg hao ha) (h.isRoot hg hbo hb)
  · obtain ⟨p, hp, heq⟩ := htyped a o' ho'
    exact heq ▸ htypes p hp
  · have h1 := h.count a (by rw [ho']; exact Option.some_ne_none _)
    have h2 := h.refs_add hg a
    have h3 := h.typeRefs_add hg a
    have h4 : rc s a = refs (kidsOf ty s) L a + typeRefs s L a + ext a := by
      cases ho : s.objs a with
      | some o₀ => rw [rc_eq ho, hg.exact.count a o₀ ho]
      | none =>
        have haL : a ∉ L := fun haL => (hg.exact.live a).1 haL ho
        have h5 : refs (kidsOf ty s) L a = 0 := refs_eq_zero.2 fun u hu hau =>
          haL (hg.exact.closed u hu a hau)
        have h6 : typeRefs s L a = 0 := Finset.card_eq_zero.2 <| Finset.filter_eq_empty_iff.2
          fun b hb htb => by
            obtain ⟨o₀, ho₀, rfl⟩ := Option.map_eq_some_iff.1 htb
            exact haL (hg.exact.held b o₀ ho₀).1
        rw [rc, ho, h5, h6, hg.unheld a ho]
        rfl
    rw [hkind a o' ho']
    omega
  · obtain ⟨h8, hx⟩ := h.functions x hx
    refine ⟨h8, (hlive _).2 fun hnone => ?_⟩
    rw [hnone] at hx
    exact Option.some_ne_none _ hx.symm
  · refine hg.typed.differ.imp_of_mem fun {p q} hp hq hpq => ?_
    rw [← hpq]
    exact objEq_congr (h.types p hp) (h.types q hq)
  · by_cases hao : a = obj
    · subst hao
      obtain rfl := Option.some.inj (h.self.symm.trans ho')
      exact h.array harray
    · obtain ⟨o₀, ho₀, heq⟩ := h.get hao ho'
      obtain ⟨htype₀, -, hcontents⟩ := uncounted_iff.1 heq
      rw [htype₀] at harray
      obtain ⟨A, hA, hAtype, hone⟩ := hg.typed.storage a o₀ ho₀ harray
      have hA' := htype _ (by rw [hA]; exact Option.some_ne_none _)
      rw [hA, Option.map_some, Option.map_eq_some_iff] at hA'
      obtain ⟨A', hA', hAtype'⟩ := hA'
      refine ⟨A', hcontents ▸ hA', hAtype'.trans hAtype, ?_⟩
      rw [hkind _ A' hA', h.storage _ A hA hAtype, hone]
  · have hk := congrArg (Option.map Obj.type) (h.types p hp)
    rw [Option.map_map, Option.map_map] at hk
    exact hk.trans (hg.strings p hp)

end Change

/-! ### Counts -/

variable (ty) in
/-- An object that is no subarray -/
def Plain (s : St) (a : ℕ) : Prop := ∃ o, s.objs a = some o ∧ o.type ≠ ty.subarrayType

/-- The counts have room for these references. -/
def Room (s : St) (l : List ℕ) : Prop := ∀ a, rc s a + l.count a < 2 ^ 31

/-- One object is written. -/
lemma rc_put : rc { s with toSt := s.toSt.put b o } a = if a = b then o.refcount else rc s a := by
  by_cases h : a = b
  · subst h
    rw [if_pos rfl]
    exact rc_eq (Function.update_self ..)
  · rw [if_neg h, rc, rc]
    exact congrArg (fun r => (Option.map Obj.refcount r).getD 0) (Function.update_of_ne h ..)

/-- Only counts change. -/
lemma Good.recount (hg : Good ty L ext s) (ha : a ∈ L) (hs : Same s s')
    (hcount : ∀ b, rc s' b + ext b = rc s b + ext' b) (hsmall : ∀ b, rc s' b < 2 ^ 31)
    (hstorage : ∀ b B, s.objs b = some B → B.type = ty.subarrayType → rc s' b = B.refcount)
    (hheld : ∀ p ∈ kinds ty, 0 < ext' p.1) (hunheld : ∀ b, s.objs b = none → ext' b = 0) :
    Good ty L ext' s' := by
  obtain ⟨o, l, ho, hl, hfilter, hmem⟩ := hg.exact.heap a ha
  obtain ⟨o', ho', heq⟩ := hs.get ho
  have hnone {b : ℕ} (hb : s'.objs b = none) : s.objs b = none := by
    have hk := hs.objs b
    rwa [hb, Option.map_none, eq_comm, Option.map_eq_none_iff] at hk
  obtain ⟨htype, -, hcontents⟩ := uncounted_iff.1 heq
  rw [← Finset.insert_eq_of_mem ha]
  refine Change.good a o' l ⟨ho', fun b _ => hs.objs b, fun p _ => hs.objs _,
    (refsOf_congr hs heq).trans hl, fun b hb hb0 => ?_, ?_, fun o₀ ho₀ => ?_, hheld,
    fun _ _ x _ => congrFun hs.trees x, fun x hr b hb hr' => hb ?_, fun b _ => ?_, hsmall, hstorage,
    fun harray => ?_, hs.gcSet ▸ hg.exact.gcSet, fun x hx => ?_, ?_,
    fun b hb => hunheld b (hnone hb), fun b hb => ?_, hs.next.ge,
    fun h0 => hg.exact.null (h0 ▸ ha)⟩ hg
  · refine Finset.mem_insert_of_mem (hmem b ?_)
    rw [← hfilter, List.mem_filter]
    exact ⟨hb, decide_eq_true hb0⟩
  · obtain ⟨p, hp, hpt⟩ := hg.typed.typed a o ho
    exact ⟨p, hp, htype.trans hpt⟩
  · obtain rfl := Option.some.inj (ho.symm.trans ho₀)
    exact htype.symm
  · exact hg.exact.distinct b a x hr' ((isRoot_congr hs.objs).1 hr)
  · have h1 := hcount b
    rw [hfilter, if_neg (by simp [ho])]
    omega
  · rw [htype] at harray
    obtain ⟨A, hA, hAtype, hone⟩ := hg.typed.storage a o ho harray
    obtain ⟨A', hA', hAeq⟩ := hs.get hA
    refine ⟨A', hcontents ▸ hA', (uncounted_iff.1 hAeq).1.trans hAtype, ?_⟩
    rw [← rc_eq hA', hstorage _ A hA hAtype, hone]
  · rw [hs.gcSet] at hx
    have hk := congrArg (Option.map Obj.type) (hs.objs (x - 8))
    rw [Option.map_map, Option.map_map] at hk
    exact ⟨(hg.exact.functions x hx).1, hk.trans (hg.typed.functions x hx)⟩
  · rw [hs.gcSet, hs.gcNumAlloced]
    exact hg.exact.num
  · rw [hs.next] at hb
    have hk := hs.objs b
    rwa [hg.fresh b hb, Option.map_none, Option.map_eq_none_iff] at hk

/-- What a program holds after it takes, or gives up, a reference to `a`. -/
def take (ext : ℕ → ℕ) (a : ℕ) : ℕ → ℕ := Function.update ext a (ext a + 1)
def give (ext : ℕ → ℕ) (a : ℕ) : ℕ → ℕ := Function.update ext a (ext a - 1)

lemma take_apply : take ext a b = ext b + [a].count b := by
  by_cases h : b = a
  · subst h
    simp [take]
  · simp [take, h, Ne.symm h]

lemma give_apply : give ext a b = ext b - [a].count b := by
  by_cases h : b = a
  · subst h
    simp [give]
  · simp [give, h, Ne.symm h]

/-- A reference is held, when there is room. -/
lemma hold_eq (ho : s.objs a = some o) (hroom : Room s [a]) :
    hold s a = some { s with toSt := s.toSt.put a { o with refcount := o.refcount + 1 } } := by
  have hlt := hroom a
  rw [rc_eq ho, List.count_singleton_self] at hlt
  have hmod : wadd o.refcount 1 = o.refcount + 1 :=
    Nat.mod_eq_of_lt (hlt.trans (Nat.pow_lt_pow_right (by decide) (by decide)))
  rw [hold, lift, Store.St.incr, ho, Option.map_some, Option.map_some, Obj.incr, hmod]

lemma Good.hold (hg : Good ty L ext s) (ha : Plain ty s a) (hroom : Room s [a])
    (h : hold s a = some s') : Good ty L (take ext a) s' := by
  obtain ⟨o, ho, htype⟩ := ha
  rw [hold_eq ho hroom, Option.some.injEq] at h
  subst h
  have hrc (b : ℕ) : rc { s with toSt := s.toSt.put a { o with refcount := o.refcount + 1 } } b =
      rc s b + [a].count b := by
    rw [rc_put]
    split_ifs with hb
    · rw [hb, List.count_singleton_self, rc_eq ho]
    · simp [Ne.symm hb]
  refine hg.recount ((hg.exact.live a).2 (by rw [ho]; exact Option.some_ne_none _)) (same_put ho)
    (fun b => ?_) (fun b => hrc b ▸ hroom b) (fun b B hB hBtype => ?_) (fun p hp => ?_)
    fun b hb => ?_
  · rw [hrc, take_apply]
    omega
  · have hba : b ≠ a := by
      rintro rfl
      exact htype (Option.some.inj (hB.symm.trans ho) ▸ hBtype)
    rw [hrc, rc_eq hB]
    simp [Ne.symm hba]
  · have := (hg.exact.types p hp).2
    rw [take_apply]
    omega
  · have hba : b ≠ a := by
      rintro rfl
      exact Option.some_ne_none o (ho.symm.trans hb)
    rw [take_apply, hg.unheld b hb]
    simp [Ne.symm hba]

lemma Good.lower (hg : Good ty L ext s) (ha : Plain ty s a) (hext : 0 < ext a)
    (htypes : ∀ p ∈ kinds ty, p.1 = a → 1 < ext a) (h : lower s a = some s') :
    Good ty L (give ext a) s' := by
  obtain ⟨o, ho, htype⟩ := ha
  have haL : a ∈ L := (hg.exact.live a).2 (by rw [ho]; exact Option.some_ne_none _)
  have hrc₀ := hg.exact.count a o ho
  have hlt : o.refcount < wordMod :=
    (hg.exact.small a o ho).trans (Nat.pow_lt_pow_right (by decide) (by decide))
  rw [Mutate.lower, ho, Option.bind_some, setRefcount_eq ho, Option.some.injEq,
    wsub_eq (by omega) hlt] at h
  subst h
  have hrc (b : ℕ) : rc { s with toSt := s.toSt.put a { o with refcount := o.refcount - 1 } } b =
      rc s b - [a].count b := by
    rw [rc_put]
    split_ifs with hb
    · rw [hb, List.count_singleton_self, rc_eq ho]
    · simp [Ne.symm hb]
  have hne {b : ℕ} (hb : b ≠ a) : [a].count b = 0 := by simp [Ne.symm hb]
  refine hg.recount haL (same_put ho) (fun b => ?_) (fun b => ?_) (fun b B hB hBtype => ?_)
    (fun p hp => ?_) fun b hb => ?_
  · rw [hrc, give_apply]
    by_cases hb : b = a
    · rw [hb, List.count_singleton_self, rc_eq ho]
      omega
    · rw [hne hb]
      omega
  · have hsmall : rc s b < 2 ^ 31 := by
      rw [rc]
      cases hb : s.objs b with
      | none => exact Nat.two_pow_pos _
      | some B => exact hg.exact.small b B hb
    rw [hrc]
    omega
  · have hba : b ≠ a := by
      rintro rfl
      exact htype (Option.some.inj (hB.symm.trans ho) ▸ hBtype)
    rw [hrc, rc_eq hB, hne hba, Nat.sub_zero]
  · have h0 := (hg.exact.types p hp).2
    rw [give_apply]
    by_cases hb : p.1 = a
    · have := htypes p hp hb
      rw [hb, List.count_singleton_self]
      omega
    · rw [hne hb]
      omega
  · rw [give_apply, hg.unheld b hb, Nat.zero_sub]

/-! ### New objects -/

/-- A new object at the next address: it holds the references `l`, and the one to its type. -/
lemma Good.fresh_obj (hg : Good ty L ext s) (hself : s'.objs s.next = some o)
    (hothers : ∀ a ≠ s.next, (s'.objs a).map uncounted = (s.objs a).map uncounted)
    (htype : ∃ p ∈ kinds ty, o.type = p.1) (hreads : refsOf ty s' o = some l)
    (hmem : ∀ b ∈ l, b ≠ 0 → b ∈ L)
    (hcount : ∀ a, rc s' a + ext a =
      rc s a + (l.filter (· ≠ 0)).count a + [o.type].count a + ext' a)
    (hsmall : ∀ a, rc s' a < 2 ^ 31)
    (hstorage : ∀ a A, s.objs a = some A → A.type = ty.subarrayType → rc s' a = A.refcount)
    (harray : o.type = ty.arrayType → ∃ arr, s'.objs (o.contents 0) = some arr ∧
      arr.type = ty.subarrayType ∧ arr.refcount = 1)
    (hheld : ∀ p ∈ kinds ty, 0 < ext' p.1) (hunheld : ∀ a, s'.objs a = none → ext' a = 0)
    (htrees : s'.trees = s.trees) (hroot : o.type = ty.setType → o.contents 0 = 0)
    (hset : s'.gcSet.Nodup)
    (hfunctions : ∀ x ∈ s'.gcSet, 8 ≤ x ∧ (s'.objs (x - 8)).map Obj.type = some ty.functionType)
    (hnum : s'.gcNumAlloced = s'.gcSet.length ∧ s'.gcSet.length < wordMod)
    (hnext : s'.next = s.next + 8) : Good ty (insert s.next L) ext' s' := by
  have hnone : s.objs s.next = none := hg.fresh _ le_rfl
  have hne {a : ℕ} (ha : s.objs a ≠ none) : a ≠ s.next := fun h => ha (h ▸ hnone)
  have htypes (p : ℕ × Kind) (hp : p ∈ kinds ty) :
      (s'.objs p.1).map uncounted = (s.objs p.1).map uncounted :=
    hothers _ (hne ((hg.exact.live _).1 (hg.exact.types p hp).1))
  refine Change.good _ o l ⟨hself, hothers, htypes, hreads, fun b hb hb0 =>
    Finset.mem_insert_of_mem (hmem b hb hb0), htype, fun o₀ ho₀ => ?_, hheld,
    fun _ _ x _ => by rw [htrees], fun x hr => ?_, fun a _ => ?_, hsmall, hstorage, harray, hset,
    hfunctions, hnum, hunheld, fun a ha => ?_, by omega, hg.pos.ne'⟩ hg
  · exact absurd (ho₀.symm.trans hnone) (Option.some_ne_none _)
  · obtain ⟨hx, o', ho', hk, hc⟩ := hr
    obtain rfl := Option.some.inj (hself.symm.trans ho')
    obtain ⟨⟨type, c⟩, hp, rfl⟩ := htype
    obtain rfl := Option.some.inj ((hg.kind htypes hp).symm.trans hk)
    have hset : o.type = ty.setType := by
      simp only [kinds, List.mem_cons, Prod.mk.injEq, reduceCtorEq, and_false, or_false, false_or,
        and_true, List.not_mem_nil] at hp
      exact hp
    exact absurd (hc ▸ hroot hset) hx
  · rw [kidsOf, hnone, Option.bind_none, Option.getD_none, List.filter_nil, List.count_nil]
    have h1 := hcount a
    by_cases ha : o.type = a
    · rw [if_pos ⟨rfl, ha⟩]
      rw [← ha, List.count_singleton_self] at h1
      rw [← ha]
      omega
    · rw [if_neg fun h => ha h.2]
      simp only [List.count_singleton, beq_iff_eq, ha, if_false] at h1
      omega
  · rw [hnext] at ha
    have hk := hothers a (by omega)
    rwa [hg.fresh a (by omega), Option.map_none, Option.map_eq_none_iff] at hk

/-- References are held, one after the other. -/
def holds : List ℕ → St → Option St
  | [], s => some s
  | a :: l, s => (hold s a).bind (holds l)

lemma holds_map {α : Type} (f : St → α) : (holds (a :: l) s).map f =
    (hold s a).bind fun s => (holds l s).map f := by
  rw [holds]
  cases hold s a <;> rfl

lemma holds_one : holds [a] s = hold s a := by
  rw [holds]
  cases hold s a <;> rfl

lemma holds_spec (hlive : ∀ a ∈ l, s.objs a ≠ none) (hroom : Room s l) :
    ∃ s', holds l s = some s' ∧ Same s s' ∧ ∀ b, rc s' b = rc s b + l.count b := by
  induction l generalizing s with
  | nil => exact ⟨s, rfl, .refl s, fun b => rfl⟩
  | cons a l ih =>
    obtain ⟨o, ho⟩ := Option.ne_none_iff_exists'.1 (hlive a List.mem_cons_self)
    have hroom₁ : Room s [a] := fun b => by
      have := hroom b
      rw [count_cons' (l := l)] at this
      omega
    set s₁ : St := { s with toSt := s.toSt.put a { o with refcount := o.refcount + 1 } }
    have hs₁ : Same s s₁ := same_put ho
    have hrc (b : ℕ) : rc s₁ b = rc s b + [a].count b := by
      rw [rc_put]
      split_ifs with hb
      · rw [hb, List.count_singleton_self, rc_eq ho]
      · simp [Ne.symm hb]
    obtain ⟨s', hs', hsame, hrc'⟩ := ih (s := s₁) (fun b hb hnone => by
      obtain ⟨o₀, ho₀⟩ := Option.ne_none_iff_exists'.1 (hlive b (List.mem_cons_of_mem _ hb))
      obtain ⟨o', ho', -⟩ := hs₁.get ho₀
      exact Option.some_ne_none _ (ho'.symm.trans hnone)) fun b => by
        have := hroom b
        rw [count_cons' (l := l)] at this
        rw [hrc]
        omega
    refine ⟨s', by rw [holds, hold_eq ho hroom₁, Option.bind_some, hs'], hs₁.trans hsame,
      fun b => ?_⟩
    rw [hrc', hrc, count_cons' (l := l)]
    omega

/-- A new object, whose type is the object `t` -/
def withNew (s : St) (t o : Obj) : St :=
  { s with
    objs := Function.update (Function.update s.objs s.next (some o)) o.type
      (some { t with refcount := t.refcount + 1 })
    next := s.next + 8 }

section WithNew

variable {t : Obj}

lemma withNew_type : (withNew s t o).objs o.type = some { t with refcount := t.refcount + 1 } :=
  Function.update_self ..

variable (hne : o.type ≠ s.next) (ht : s.objs o.type = some t)
include hne

lemma withNew_self : (withNew s t o).objs s.next = some o :=
  (Function.update_of_ne hne.symm ..).trans (Function.update_self ..)

lemma withNew_put (htype : o'.type = o.type) :
    { withNew s t o with toSt := (withNew s t o).toSt.put s.next o' } = withNew s t o' := by
  simp only [withNew, Store.St.put, htype]
  rw [Function.update_comm hne, Function.update_idem]

include ht

omit hne in
lemma withNew_others (ha : a ≠ s.next) :
    ((withNew s t o).objs a).map uncounted = (s.objs a).map uncounted := by
  by_cases hat : a = o.type
  · subst hat
    rw [ht, withNew_type]
    rfl
  · exact congrArg (Option.map uncounted) ((Function.update_of_ne hat ..).trans
      (Function.update_of_ne ha ..))

lemma rc_withNew (hnone : s.objs s.next = none) (h0 : o.refcount = 0) :
    rc (withNew s t o) a = rc s a + [o.type].count a := by
  by_cases hat : a = o.type
  · subst hat
    rw [List.count_singleton_self, rc_eq ht, rc_eq withNew_type]
  · have hcount : [o.type].count a = 0 := by simp [Ne.symm hat]
    rw [hcount, Nat.add_zero]
    by_cases han : a = s.next
    · subst han
      rw [rc_eq (withNew_self hne), h0, rc, hnone]
      rfl
    · exact congrArg (fun r => (Option.map Obj.refcount r).getD 0)
        ((Function.update_of_ne hat ..).trans (Function.update_of_ne han ..))

lemma object_eq {ws : List ℕ} (ho : o = .ofWords 0 o.type ws) (hroom : Room s [o.type]) :
    object s o.type ws = some (withNew s t o, s.next) := by
  have hlt := hroom o.type
  rw [rc_eq ht, List.count_singleton_self] at hlt
  have hmod : wadd t.refcount 1 = t.refcount + 1 :=
    Nat.mod_eq_of_lt (hlt.trans (Nat.pow_lt_pow_right (by decide) (by decide)))
  have ht' : (Function.update s.objs s.next (some o)) o.type = some t :=
    (Function.update_of_ne hne ..).trans ht
  rw [object, liftObj, Store.object, ← ho]
  simp only [Store.St.incr, Store.St.put, ht', Option.map_some, Obj.incr, hmod]
  rfl

end WithNew

lemma Good.string_ne (hg : Good ty L ext s) {c : Kind} (hp : (a, c) ∈ kinds ty)
    (ho : s.objs a = some o) : o.type ≠ ty.subarrayType := by
  intro h
  have hs := hg.strings _ hp
  rw [ho, Option.map_some, h] at hs
  have hd := hg.typed.differ
  simp only [kinds, List.pairwise_cons, List.mem_cons, forall_eq_or_imp] at hd
  have hdiffer : objEq s.toSt ty.stringType ty.subarrayType = some false := hd.1.2.2.2.2.2.1
  rw [← Option.some.inj hs] at hdiffer
  obtain ⟨t, ht⟩ := Option.ne_none_iff_exists'.1 ((hg.exact.live _).1 (hg.exact.types
    (ty.subarrayType, .items) (by simp [kinds])).1)
  rw [objEq_self ht] at hdiffer
  exact Bool.noConfusion (Option.some.inj hdiffer)

variable (o l ext') in
/-- **A new object**, and the references that are held for it. -/
lemma Good.born {t : Obj} (ws : List ℕ) (hg : Good ty L ext s) (ht : s.objs o.type = some t)
    (htype : ∃ p ∈ kinds ty, o.type = p.1) (h0 : o.refcount = 0)
    (hreads : refsOf ty (withNew s t o) o = some ws) (hmem : ∀ b ∈ ws, b ≠ 0 → b ∈ L)
    (hlive : ∀ a ∈ l, (withNew s t o).objs a ≠ none)
    (hplain : ∀ a ∈ l, ∀ A, s.objs a = some A → A.type ≠ ty.subarrayType)
    (hroom : Room s (o.type :: l))
    (hcount : ∀ a, l.count a + ext a = (ws.filter (· ≠ 0)).count a + ext' a)
    (hheld : ∀ p ∈ kinds ty, 0 < ext' p.1)
    (harray : o.type = ty.arrayType → ∃ arr, s.objs (o.contents 0) = some arr ∧
      arr.type = ty.subarrayType ∧ arr.refcount = 1)
    (hroot : o.type = ty.setType → o.contents 0 = 0) :
    ∃ s', holds l (withNew s t o) = some s' ∧ Same (withNew s t o) s' ∧
      Good ty (insert s.next L) ext' s' ∧ ∀ a, rc s' a = rc s a + (o.type :: l).count a := by
  have hnone : s.objs s.next = none := hg.fresh _ le_rfl
  have hne : o.type ≠ s.next := fun h => Option.some_ne_none t (ht.symm.trans (h ▸ hnone))
  have hrc₀ (a : ℕ) := rc_withNew (a := a) hne ht hnone h0
  obtain ⟨s', hs', hsame, hrc⟩ := holds_spec hlive fun a => by
    rw [hrc₀, Nat.add_assoc, ← count_cons']
    exact hroom a
  obtain ⟨o', ho', heq⟩ := hsame.get (withNew_self hne)
  obtain ⟨htype', -, hcontents'⟩ := uncounted_iff.1 heq
  have hothers (a : ℕ) (ha : a ≠ s.next) : (s'.objs a).map uncounted = (s.objs a).map uncounted :=
    (hsame.objs a).trans (withNew_others ht ha)
  have hrc' (a : ℕ) : rc s' a = rc s a + (o.type :: l).count a := by
    rw [hrc, hrc₀, count_cons' (l := l), Nat.add_assoc]
  -- the types are no subarrays, so that the counts of these stay
  have hstorage (a : ℕ) (A : Obj) (hA : s.objs a = some A) (hAtype : A.type = ty.subarrayType) :
      (o.type :: l).count a = 0 := by
    refine List.count_eq_zero.2 fun ha => ?_
    rcases List.mem_cons.1 ha with rfl | ha
    · obtain ⟨⟨type, c⟩, hp, rfl⟩ := htype
      exact hg.string_ne hp hA hAtype
    · exact hplain a ha A hA hAtype
  have hgone {a : ℕ} (ha : s'.objs a = none) : a ≠ s.next ∧ s.objs a = none ∧ a ∉ l := by
    have han : a ≠ s.next := fun h => Option.some_ne_none o' (ho'.symm.trans (h ▸ ha))
    have hk := hothers a han
    rw [ha, Option.map_none, eq_comm, Option.map_eq_none_iff] at hk
    refine ⟨han, hk, fun hal => hlive a hal ?_⟩
    have hk' := hsame.objs a
    rwa [ha, Option.map_none, eq_comm, Option.map_eq_none_iff] at hk'
  refine ⟨s', hs', hsame, hg.fresh_obj (o := o') (l := ws) ho' hothers (htype'.symm ▸ htype)
    ((refsOf_congr hsame heq).trans hreads) hmem (fun a => ?_) (fun a => hrc' a ▸ hroom a)
    (fun a A hA hAtype => ?_) (fun harr => ?_) hheld (fun a ha => ?_) hsame.trees (fun hset => ?_)
    (hsame.gcSet ▸ hg.exact.gcSet) (fun x hx => ?_) ?_ hsame.next, hrc'⟩
  · have h1 := hcount a
    rw [hrc', count_cons' (l := l), htype']
    omega
  · rw [hrc', rc_eq hA, hstorage a A hA hAtype, Nat.add_zero]
  · rw [htype'] at harr
    obtain ⟨arr, hA, hAtype, hone⟩ := harray harr
    have hAn : o.contents 0 ≠ s.next := fun h => Option.some_ne_none arr (hA.symm.trans (h ▸ hnone))
    have hk := hothers _ hAn
    rw [hA, Option.map_some, Option.map_eq_some_iff] at hk
    obtain ⟨A', hA', hAeq⟩ := hk
    refine ⟨A', hcontents' ▸ hA', (uncounted_iff.1 hAeq).1.trans hAtype, ?_⟩
    rw [← rc_eq hA', hrc', rc_eq hA, hstorage _ arr hA hAtype, hone]
  · obtain ⟨-, hnone', hal⟩ := hgone ha
    have h1 := hcount a
    rw [hg.unheld a hnone', List.count_eq_zero.2 hal] at h1
    omega
  · rw [hcontents']
    exact hroot (htype' ▸ hset)
  · rw [hsame.gcSet] at hx
    have hx8 := hg.typed.functions x hx
    have hxn : x - 8 ≠ s.next := fun h => by
      rw [h, hnone] at hx8
      exact Option.some_ne_none _ hx8.symm
    have hk := congrArg (Option.map Obj.type) (hothers _ hxn)
    rw [Option.map_map, Option.map_map] at hk
    exact ⟨(hg.exact.functions x hx).1, hk.trans hx8⟩
  · rw [hsame.gcSet, hsame.gcNumAlloced]
    exact hg.exact.num

section Born

variable {t : Obj} {c : Kind} {ws : List ℕ} {type : ℕ}

lemma Good.exists_type (hg : Good ty L ext s) (hp : (type, c) ∈ kinds ty) :
    ∃ t, s.objs type = some t ∧ type ≠ s.next := by
  obtain ⟨t, ht⟩ := Option.ne_none_iff_exists'.1 ((hg.exact.live _).1 (hg.exact.types _ hp).1)
  exact ⟨t, ht, fun h => Option.some_ne_none t (ht.symm.trans (h ▸ hg.fresh _ le_rfl))⟩

lemma Good.kind_new (hg : Good ty L ext s) (ht : s.objs o.type = some t)
    (hp : (o.type, c) ∈ kinds ty) : kindOf ty (withNew s t o).toSt o = some c := by
  refine hg.kind (fun q hq => withNew_others ht fun h => ?_) hp
  exact (hg.exact.live _).1 (hg.exact.types q hq).1 (h ▸ hg.fresh _ le_rfl)

lemma Good.kind_type (hg : Good ty L ext s) {c' : Kind} (hp : (type, c) ∈ kinds ty)
    (hp' : (type, c') ∈ kinds ty) : c = c' := by
  obtain ⟨t, ht, -⟩ := hg.exists_type hp
  exact Option.some.inj ((hg.kind_new (o := .ofWords 0 type []) ht hp).symm.trans
    (hg.kind_new (o := .ofWords 0 type []) ht hp'))

lemma Good.kind_array (hg : Good ty L ext s) (hp : (type, c) ∈ kinds ty) (h : type = ty.arrayType) :
    c = .array := hg.kind_type hp (by simp [kinds, h])

lemma Good.kind_set (hg : Good ty L ext s) (hp : (type, c) ∈ kinds ty) (h : type = ty.setType) :
    c = .tree := hg.kind_type hp (by simp [kinds, h])

lemma Good.mem (hg : Good ty L ext s) (ho : s.objs a = some o) : a ∈ L ∧ a ≠ s.next ∧ a ≠ 0 := by
  have haL : a ∈ L := (hg.exact.live a).2 (by rw [ho]; exact Option.some_ne_none _)
  exact ⟨haL, fun h => Option.some_ne_none o (ho.symm.trans (h ▸ hg.fresh _ le_rfl)),
    fun h => hg.exact.null (h ▸ haL)⟩

/-- **A leaf** -/
lemma Good.object (hg : Good ty L ext s) (hp : (type, .leaf) ∈ kinds ty) (hroom : Room s [type])
    (h : object s type ws = some (s', obj)) : Good ty (insert s.next L) ext s' := by
  obtain ⟨t, ht, hne⟩ := hg.exists_type hp
  set o : Obj := .ofWords 0 type ws
  have heq : Mutate.object s type ws = some (withNew s t o, s.next) :=
    object_eq (o := o) hne ht rfl hroom
  obtain ⟨s₁, hs₁, -, hgood, -⟩ := hg.born ext o [] [] ht ⟨_, hp, rfl⟩ rfl
    (by rw [refsOf, hg.kind_new ht hp]; rfl) (by simp) (by simp) (by simp) hroom (by simp)
    (fun p hp => (hg.exact.types p hp).2)
    (fun harr => absurd (hg.kind_array hp harr) (by decide))
    (fun hset => absurd (hg.kind_set hp hset) (by decide))
  obtain rfl := Option.some.inj hs₁
  obtain ⟨rfl, -⟩ := Prod.mk.inj (Option.some.inj (heq.symm.trans h))
  exact hgood

/-- **An empty set** -/
lemma Good.set (hg : Good ty L ext s) (hroom : Room s [ty.setType])
    (h : Mutate.set ty s = some (s', obj)) : Good ty (insert s.next L) ext s' := by
  have hp : (ty.setType, .tree) ∈ kinds ty := by simp [kinds]
  obtain ⟨t, ht, hne⟩ := hg.exists_type hp
  set o : Obj := .ofWords 0 ty.setType [0]
  have heq : Mutate.set ty s = some (withNew s t o, s.next) := object_eq (o := o) hne ht rfl hroom
  obtain ⟨s₁, hs₁, -, hgood, -⟩ := hg.born ext o [] [] ht ⟨_, hp, rfl⟩ rfl
    (by rw [refsOf, hg.kind_new ht hp]; rfl) (by simp) (by simp) (by simp) hroom (by simp)
    (fun p hp => (hg.exact.types p hp).2)
    (fun harr => absurd (hg.kind_array hp harr) (by decide)) (fun _ => rfl)
  obtain rfl := Option.some.inj hs₁
  obtain ⟨rfl, -⟩ := Prod.mk.inj (Option.some.inj (heq.symm.trans h))
  exact hgood

/-- A new object whose words are references -/
lemma Good.items (hg : Good ty L ext s) (ht : s.objs o.type = some t)
    (hp : (o.type, .items) ∈ kinds ty) (h0 : o.refcount = 0) (hplain : ∀ a ∈ o.words, Plain ty s a)
    (hroom : Room s (o.type :: o.words)) : ∃ s', holds o.words (withNew s t o) = some s' ∧
      Same (withNew s t o) s' ∧ Good ty (insert s.next L) ext s' ∧
      ∀ a, rc s' a = rc s a + (o.type :: o.words).count a := by
  have hmem (a : ℕ) (ha : a ∈ o.words) : a ∈ L ∧ a ≠ s.next ∧ a ≠ 0 := by
    obtain ⟨oa, hoa, -⟩ := hplain a ha
    exact hg.mem hoa
  have hfilter : o.words.filter (· ≠ 0) = o.words :=
    List.filter_eq_self.2 fun a ha => decide_eq_true (hmem a ha).2.2
  refine hg.born _ _ _ _ ht ⟨_, hp, rfl⟩ h0 (by rw [refsOf, hg.kind_new ht hp]; rfl)
    (fun a ha _ => (hmem a ha).1) (fun a ha hnone => ?_) (fun a ha A hA => ?_) hroom
    (fun a => by rw [hfilter]) (fun p hp => (hg.exact.types p hp).2)
    (fun harr => absurd (hg.kind_array hp harr) (by decide))
    (fun hset => absurd (hg.kind_set hp hset) (by decide))
  · obtain ⟨oa, hoa, -⟩ := hplain a ha
    have hk := withNew_others (o := o) ht (hmem a ha).2.1
    rw [hnone, hoa] at hk
    exact Option.some_ne_none _ hk.symm
  · obtain ⟨oa, hoa, hta⟩ := hplain a ha
    exact Option.some.inj (hoa.symm.trans hA) ▸ hta

/-- **A pair** -/
lemma Good.pair (hg : Good ty L ext s) (ha : Plain ty s a) (hb : Plain ty s b)
    (hroom : Room s [ty.cellType, a, b]) (h : pair ty s a b = some (s', obj)) :
    Good ty (insert s.next L) ext s' := by
  have hp : (ty.cellType, .items) ∈ kinds ty := by simp [kinds]
  obtain ⟨t, ht, hne⟩ := hg.exists_type hp
  set o₀ : Obj := .ofWords 0 ty.cellType []
  set o : Obj := { (o₀.setWord 0 a).setWord 1 b with size := 2 }
  have hwords : o.words = [a, b] := rfl
  obtain ⟨s₁, hs₁, -, hgood, -⟩ := hg.items (o := o) ht hp rfl (by simp [hwords, ha, hb]) hroom
  have hroom₀ : Room s [ty.cellType] := fun x => by
    have := hroom x
    have h' : [ty.cellType].count x ≤ [ty.cellType, a, b].count x :=
      List.Sublist.count_le x (by simp)
    omega
  have heq : Mutate.object s ty.cellType [] = some (withNew s t o₀, s.next) :=
    object_eq (o := o₀) hne ht rfl hroom₀
  have hput : { withNew s t o₀ with toSt := (withNew s t o₀).toSt.put s.next o } = withNew s t o :=
    withNew_put (o := o₀) hne rfl
  have hpair : Mutate.pair ty s a b = (holds [a, b] (withNew s t o)).map (·, s.next) := by
    rw [Mutate.pair, heq, Option.bind_some]
    dsimp only
    rw [withNew_self (o := o₀) hne, Option.bind_some, ← hput, holds_map]
    simp only [holds_one]
    rfl
  rw [hwords] at hs₁
  rw [hpair, hs₁] at h
  obtain ⟨rfl, -⟩ := Prod.mk.inj (Option.some.inj h)
  exact hgood

/-- The set of what is registered does not matter to the counts. -/
lemma holds_registered (l : List ℕ) (s : St) (g : List ℕ) (m : ℕ) :
    holds l { s with gcSet := g, gcNumAlloced := m } =
      (holds l s).map fun s => { s with gcSet := g, gcNumAlloced := m } := by
  induction l generalizing s with
  | nil => rfl
  | cons a l ih =>
    have hhold : hold { s with gcSet := g, gcNumAlloced := m } a =
        (hold s a).map fun s => { s with gcSet := g, gcNumAlloced := m } := by
      rw [Mutate.hold, Mutate.hold, lift, lift, Option.map_map]
      rfl
    rw [holds, holds, hhold]
    cases hold s a with
    | none => rfl
    | some s₁ => exact ih s₁

/-- A function is registered. -/
lemma Good.register (hg : Good ty L ext s) (ho : s.objs obj = some o)
    (htype : o.type = ty.functionType) (hnot : obj + 8 ∉ s.gcSet)
    (hlen : s.gcSet.length + 1 < wordMod) :
    Good ty L ext { s with gcSet := (obj + 8) :: s.gcSet
                           gcNumAlloced := wadd s.gcNumAlloced 1 } := by
  have hadd : wadd s.gcNumAlloced 1 = s.gcSet.length + 1 := by
    rw [hg.exact.num.1]
    exact Nat.mod_eq_of_lt hlen
  have he := hg.exact
  have ht := hg.typed
  refine ⟨⟨he.live, he.null, he.heap, he.distinct, he.types, he.held, he.count, he.small,
    List.nodup_cons.2 ⟨hnot, he.gcSet⟩, fun x hx => ?_, hadd, hlen⟩,
    ⟨ht.differ, ht.typed, ht.storage, fun x hx => ?_⟩, hg.strings, hg.unheld, hg.fresh, hg.pos⟩
  · rcases List.mem_cons.1 hx with rfl | hx
    · exact ⟨by omega, by simpa using (hg.mem ho).1⟩
    · exact he.functions x hx
  · rcases List.mem_cons.1 hx with rfl | hx
    · rw [Nat.add_sub_cancel]
      exact (congrArg _ ho).trans (congrArg some htype)
    · exact ht.functions x hx

lemma Room.left {l' : List ℕ} (h : Room s (l ++ l')) : Room s l := fun a => by
  have := h a
  rw [List.count_append] at this
  omega

/-- **A function** -/
lemma Good.newFnOf {ns args exp f n : ℕ} {root : List ℕ → ℕ} (hg : Good ty L ext s)
    (hns : Plain ty s ns) (hargs : Plain ty s args) (hexp : Plain ty s exp)
    (hroom : Room s [ty.functionType, ns, args, exp]) (hlen : s.gcSet.length + 1 < wordMod)
    (h : newFnOf ty root n s ns args exp = some (s', f)) : Good ty (insert s.next L) ext s' := by
  have hp : (ty.functionType, .items) ∈ kinds ty := by simp [kinds]
  obtain ⟨t, ht, hne⟩ := hg.exists_type hp
  set o₀ : Obj := .ofWords 0 ty.functionType []
  set o : Obj := { ((o₀.setWord 0 ns).setWord 1 args).setWord 2 exp with size := 3 }
  have hwords : o.words = [ns, args, exp] := rfl
  obtain ⟨s₁, hs₁, hsame, hgood, -⟩ :=
    hg.items (o := o) ht hp rfl (by simp [hwords, hns, hargs, hexp]) hroom
  rw [hwords] at hs₁
  have heq : Mutate.object s ty.functionType [] = some (withNew s t o₀, s.next) :=
    object_eq (o := o₀) hne ht rfl (Room.left (l := [ty.functionType]) hroom)
  have hput : { withNew s t o₀ with toSt := (withNew s t o₀).toSt.put s.next o } = withNew s t o :=
    withNew_put (o := o₀) hne rfl
  have hnot : s.next + 8 ∉ s.gcSet := fun hx => by
    have := (hg.exact.live _).1 (hg.exact.functions _ hx).2
    rw [Nat.add_sub_cancel] at this
    exact this (hg.fresh _ le_rfl)
  have hgc : gcAdd (withNew s t o₀) s.next = ({ withNew s t o₀ with
      gcSet := (s.next + 8) :: s.gcSet, gcNumAlloced := wadd s.gcNumAlloced 1 }, false) :=
    if_neg hnot
  have hfn : Mutate.newFnOf ty root n s ns args exp =
      (holds [ns, args, exp] { withNew s t o with
        gcSet := (s.next + 8) :: s.gcSet
        gcNumAlloced := wadd s.gcNumAlloced 1 }).map (·, s.next) := by
    rw [Mutate.newFnOf, heq, Option.bind_some]
    dsimp only
    rw [hgc]
    dsimp only
    rw [if_neg Bool.false_ne_true, withNew_self (o := o₀) hne, Option.bind_some, ← hput, holds_map]
    simp only [holds_map (l := [exp]), holds_one]
    rfl
  rw [hfn, holds_registered, hs₁] at h
  obtain ⟨rfl, -⟩ := Prod.mk.inj (Option.some.inj h)
  obtain ⟨o', ho', hoeq⟩ := hsame.get (withNew_self (o := o) hne)
  have hset : s₁.gcSet = s.gcSet := hsame.gcSet
  have hnum : s₁.gcNumAlloced = s.gcNumAlloced := hsame.gcNumAlloced
  have hreg := hgood.register ho' (uncounted_iff.1 hoeq).1 (hset ▸ hnot) (hset ▸ hlen)
  rwa [hset, hnum] at hreg

lemma objArray_eq (s : St) : Mutate.objArray ty s =
    (object s ty.subarrayType []).bind fun (s, arr) => (hold s arr).bind fun s =>
      (object s ty.arrayType []).bind fun (s, ret) => (s.objs ret).map fun r =>
        ({ s with toSt := s.toSt.put ret (r.setWord 0 arr) }, ret) := by
  unfold Mutate.objArray Store.objArray Mutate.object Mutate.hold liftObj lift
  cases Store.object s.toSt ty.subarrayType [] with
  | none => rfl
  | some w =>
    obtain ⟨s₁, arr⟩ := w
    simp only [Option.map_some, Option.bind_some]
    cases s₁.incr arr 1 with
    | none => rfl
    | some s₂ =>
      simp only [Option.map_some, Option.bind_some]
      cases Store.object s₂ ty.arrayType [] with
      | none => rfl
      | some w =>
        obtain ⟨s₃, ret⟩ := w
        simp only [Option.map_some, Option.bind_some, Option.map_map]
        rfl

/-- **An empty array** -/
lemma Good.objArray (hg : Good ty L ext s) (hroom : Room s [ty.subarrayType, ty.arrayType])
    (h : Mutate.objArray ty s = some (s', obj)) :
    Good ty (insert (s.next + 8) (insert s.next L)) ext s' := by
  have hnone : s.objs s.next = none := hg.fresh _ le_rfl
  have hsub : (ty.subarrayType, .items) ∈ kinds ty := by simp [kinds]
  have harr : (ty.arrayType, .array) ∈ kinds ty := by simp [kinds]
  obtain ⟨t₁, ht₁, hne₁⟩ := hg.exists_type hsub
  have hrc₀ : rc s s.next = 0 := by rw [rc, hnone]; rfl
  -- the subarray, which is held
  set o₁ : Obj := .ofWords 0 ty.subarrayType []
  have hself₁ : (withNew s t₁ o₁).objs s.next = some o₁ := withNew_self (o := o₁) hne₁
  have hroom₁ : Room s [ty.subarrayType, s.next] := fun a => by
    have h1 := hroom a
    rw [count_cons'] at h1 ⊢
    by_cases ha : a = s.next
    · rw [ha, List.count_singleton_self, hrc₀]
      have h2 : [ty.subarrayType].count s.next ≤ 1 := List.count_le_length
      omega
    · have h2 : [s.next].count a = 0 := by simp [Ne.symm ha]
      omega
  obtain ⟨s₁, hs₁, hsame₁, hg₁, hrc₁⟩ := hg.born (take ext s.next) o₁ [s.next] []
    ht₁ ⟨_, hsub, rfl⟩ rfl (by rw [refsOf, hg.kind_new ht₁ hsub]; rfl) (by simp)
    (fun a ha hn => by
      rw [List.mem_singleton.1 ha, hself₁] at hn
      exact Option.some_ne_none _ hn)
    (fun a ha A hA => by
      rw [List.mem_singleton.1 ha, hnone] at hA
      exact absurd hA.symm (Option.some_ne_none A)) hroom₁
    (fun a => by
      rw [take_apply, List.filter_nil, List.count_nil]
      omega)
    (fun p hp => by
      have := (hg.exact.types p hp).2
      rw [take_apply]
      omega)
    (fun h => absurd (hg.kind_array hsub h) (by decide))
    (fun h => absurd (hg.kind_set hsub h) (by decide))
  have hnext₁ : s₁.next = s.next + 8 := hsame₁.next
  obtain ⟨A, hA, hAeq⟩ := hsame₁.get hself₁
  have hone : A.refcount = 1 := by
    rw [← rc_eq hA, hrc₁, hrc₀, Nat.zero_add]
    simp [o₁, Obj.ofWords, hne₁]
  -- the array
  obtain ⟨t₂, ht₂, hne₂⟩ := hg₁.exists_type harr
  set o₂ : Obj := .ofWords 0 ty.arrayType []
  set o₃ : Obj := o₂.setWord 0 s.next
  have hroom₂ : Room s₁ [ty.arrayType] := fun a => by
    have h1 := hroom a
    have h2 := hroom₁ a
    have h5 : rc s₁ a = rc s a + [ty.subarrayType, s.next].count a := hrc₁ a
    rw [h5]
    rw [count_cons'] at h1 h2 ⊢
    by_cases ha : a = s.next
    · have h3 : [ty.arrayType].count a ≤ 1 := List.count_le_length
      have h4 : [ty.subarrayType].count a ≤ 1 := List.count_le_length
      rw [ha, List.count_singleton_self, hrc₀]
      rw [ha] at h3 h4
      omega
    · have h3 : [s.next].count a = 0 := by simp [Ne.symm ha]
      omega
  obtain ⟨s₂, hs₂, -, hg₂, -⟩ := hg₁.born ext o₃ [] [s.next]
    ht₂ ⟨_, harr, rfl⟩ rfl (by rw [refsOf, hg₁.kind_new (o := o₃) ht₂ harr]; rfl)
    (fun b hb _ => List.mem_singleton.1 hb ▸ Finset.mem_insert_self _ _) (by simp) (by simp) hroom₂
    (fun a => by
      rw [take_apply, List.filter_eq_self.2 fun b hb => decide_eq_true
        (List.mem_singleton.1 hb ▸ hg.pos.ne'), List.count_nil]
      omega)
    (fun p hp => (hg.exact.types p hp).2)
    (fun _ => ⟨A, hA, (uncounted_iff.1 hAeq).1, hone⟩)
    (fun h => absurd (hg₁.kind_set harr h) (by decide))
  have heq : Mutate.objArray ty s = some (s₂, s₁.next) := by
    have heq₁ : Mutate.object s ty.subarrayType [] = some (withNew s t₁ o₁, s.next) :=
      object_eq (o := o₁) hne₁ ht₁ rfl (Room.left (l := [ty.subarrayType]) hroom₁)
    have heq₂ : Mutate.object s₁ ty.arrayType [] = some (withNew s₁ t₂ o₂, s₁.next) :=
      object_eq (o := o₂) hne₂ ht₂ rfl hroom₂
    rw [objArray_eq, heq₁, Option.bind_some]
    dsimp only
    rw [← holds_one, hs₁, Option.bind_some, heq₂, Option.bind_some]
    dsimp only
    rw [withNew_self (o := o₂) hne₂, Option.map_some]
    refine congrArg (fun s => some (s, s₁.next)) ?_
    have hput : { withNew s₁ t₂ o₂ with toSt := (withNew s₁ t₂ o₂).toSt.put s₁.next o₃ } =
        withNew s₁ t₂ o₃ := withNew_put hne₂ rfl
    exact hput.trans (Option.some.inj hs₂)
  obtain ⟨rfl, -⟩ := Prod.mk.inj (Option.some.inj (heq.symm.trans h))
  rwa [hnext₁] at hg₂

end Born

/-! ### Changes of objects -/

/-- The types are strings. -/
lemma Good.type_ne (hg : Good ty L ext s) (ho : s.objs obj = some o)
    (hstring : o.type ≠ ty.stringType) (p : ℕ × Kind) (hp : p ∈ kinds ty) : p.1 ≠ obj := fun h => by
  have hs := hg.strings p hp
  rw [h, ho, Option.map_some] at hs
  exact hstring (Option.some.inj hs)

lemma Good.kind_string {c : Kind} {type : ℕ} (hg : Good ty L ext s) (hp : (type, c) ∈ kinds ty)
    (h : type = ty.stringType) : c = .leaf := hg.kind_type hp (by simp [kinds, h])

/-- An object, no array, gets other contents; the counts stay. -/
lemma Good.edit {o₀ : Obj} (hg : Good ty L ext s) (ho : s.objs obj = some o₀)
    (hself : s'.objs obj = some o) (htype : o.type = o₀.type) (hrc : o.refcount = o₀.refcount)
    (hobjs : ∀ a ≠ obj, s'.objs a = s.objs a) (harray : o₀.type ≠ ty.arrayType)
    (hstring : o₀.type ≠ ty.stringType) (hreads : refsOf ty s' o = some l)
    (hmem : ∀ b ∈ l, b ≠ 0 → b ∈ L)
    (hcount : ∀ a, (kidsOf ty s obj).count a + ext a = (l.filter (· ≠ 0)).count a + ext' a)
    (hheld : ∀ p ∈ kinds ty, 0 < ext' p.1)
    (htrees : ∀ a ≠ obj, ∀ x, IsRoot ty s a x → s'.trees x = s.trees x)
    (hroots : ∀ x, IsRoot ty s' obj x → ∀ a ≠ obj, ¬ IsRoot ty s a x) (hnext : s'.next = s.next)
    (hset : s'.gcSet = s.gcSet) (hnum : s'.gcNumAlloced = s.gcNumAlloced) : Good ty L ext' s' := by
  have hobj := hg.mem ho
  have hrc' (a : ℕ) : rc s' a = rc s a := by
    by_cases ha : a = obj
    · rw [ha, rc_eq hself, rc_eq ho, hrc]
    · rw [rc, rc, hobjs a ha]
  have hnone (a : ℕ) (ha : s'.objs a = none) : s.objs a = none ∧ a ∉ L := by
    have hao : a ≠ obj := fun h => Option.some_ne_none o (hself.symm.trans (h ▸ ha))
    have hs := (hobjs a hao).symm.trans ha
    exact ⟨hs, fun haL => (hg.exact.live a).1 haL hs⟩
  have hstrings := hg.type_ne ho hstring
  rw [← Finset.insert_eq_of_mem hobj.1]
  refine Change.good obj o l ⟨hself, fun a ha => by rw [hobjs a ha],
    fun p hp => by rw [hobjs _ (hstrings p hp)], hreads, fun b hb hb0 =>
    Finset.mem_insert_of_mem (hmem b hb hb0), htype ▸ hg.typed.typed obj o₀ ho, fun o₁ ho₁ => ?_,
    hheld, htrees, hroots, fun a _ => ?_, fun a => ?_, fun a A hA _ => by rw [hrc', rc_eq hA],
    fun harr => absurd (htype.symm.trans harr) harray, hset ▸ hg.exact.gcSet, fun x hx => ?_, ?_,
    fun a ha => ?_, fun a ha => ?_, hnext.ge, hobj.2.2⟩ hg
  · exact Option.some.inj (ho₁.symm.trans ho) ▸ htype.symm
  · have h1 := hcount a
    rw [hrc', if_neg (by simp [ho])]
    omega
  · rw [hrc', rc]
    cases ha : s.objs a with
    | none => exact Nat.two_pow_pos _
    | some A => exact hg.exact.small a A ha
  · rw [hset] at hx
    refine ⟨(hg.exact.functions x hx).1, ?_⟩
    by_cases hxo : x - 8 = obj
    · have hx8 := hg.typed.functions x hx
      rw [hxo, ho, Option.map_some] at hx8
      rw [hxo, hself, Option.map_some, htype, hx8]
    · rw [hobjs _ hxo]
      exact hg.typed.functions x hx
  · rw [hset, hnum]
    exact hg.exact.num
  · obtain ⟨hs, haL⟩ := hnone a ha
    have h1 := hcount a
    have h2 : (kidsOf ty s obj).count a = 0 := List.count_eq_zero.2 fun h =>
      haL (hg.exact.closed obj hobj.1 a h)
    rw [hg.unheld a hs] at h1
    omega
  · rw [hnext] at ha
    have hs := hg.fresh a ha
    have hao : a ≠ obj := fun h => Option.some_ne_none o₀ (ho.symm.trans (h ▸ hs))
    rw [hobjs a hao, hs]

variable (o' ext') in
/-- The words of an object whose words are references are written. -/
lemma Good.putItems (hg : Good ty L ext s) (ho : s.objs obj = some o)
    (hp : (o.type, .items) ∈ kinds ty) (htype : o'.type = o.type) (hrc : o'.refcount = o.refcount)
    (hmem : ∀ b ∈ o'.words, b ≠ 0 → b ∈ L ∨ b ∈ o.words)
    (hcount : ∀ a ≠ 0, o.words.count a + ext a = o'.words.count a + ext' a) (hzero : ext' 0 = ext 0)
    (hheld : ∀ p ∈ kinds ty, 0 < ext' p.1) :
    Good ty L ext' { s with toSt := s.toSt.put obj o' } := by
  have hstring : o.type ≠ ty.stringType := fun h => absurd (hg.kind_string hp h) (by decide)
  have hne := hg.type_ne ho hstring
  have hself : (s.toSt.put obj o').objs obj = some o' := Function.update_self ..
  have hother {a : ℕ} (ha : a ≠ obj) : (s.toSt.put obj o').objs a = s.objs a :=
    Function.update_of_ne ha ..
  have htypes : ∀ p ∈ kinds ty, (({ s with toSt := s.toSt.put obj o' } : St).objs p.1).map
      uncounted = (s.objs p.1).map uncounted := fun p hp => by rw [hother (hne p hp)]
  have hkind : kindOf ty (s.toSt.put obj o') o' = some .items :=
    hg.kind htypes (htype ▸ hp)
  obtain ⟨o₁, l₁, ho₁, hl₁, hfilter₁, hmem₁⟩ := hg.exact.heap obj (hg.mem ho).1
  obtain rfl := Option.some.inj (ho.symm.trans ho₁)
  have hkind₀ : kindOf ty s.toSt o = some .items := hg.kind (fun _ _ => rfl) hp
  rw [refsOf, hkind₀, Option.bind_some, Option.some.injEq] at hl₁
  subst hl₁
  refine hg.edit (l := o'.words) ho hself htype hrc (fun a => hother)
    (fun h => absurd (hg.kind_array hp h) (by decide)) hstring
    (by rw [refsOf, hkind, Option.bind_some]) (fun b hb hb0 => ?_) (fun a => ?_) hheld
    (fun _ _ _ _ => rfl) (fun x hr => ?_) rfl rfl rfl
  · refine (hmem b hb hb0).elim id fun hbo => hmem₁ b ?_
    rw [← hfilter₁, List.mem_filter]
    exact ⟨hbo, decide_eq_true hb0⟩
  · rw [← hfilter₁]
    by_cases ha : a = 0
    · have hnot (ws : List ℕ) : (ws.filter (· ≠ 0)).count a = 0 :=
        List.count_eq_zero.2 fun h => of_decide_eq_true (List.mem_filter.1 h).2 ha
      rw [hnot, hnot, ha, hzero]
    · have hcount' (ws : List ℕ) : (ws.filter (· ≠ 0)).count a = ws.count a :=
        List.count_filter (decide_eq_true ha)
      rw [hcount', hcount']
      exact hcount a ha
  · obtain ⟨-, o₂, ho₂, hk, -⟩ := hr
    obtain rfl := Option.some.inj (hself.symm.trans ho₂)
    exact absurd (Option.some.inj (hkind.symm.trans hk)) (by decide)

/-- What a program holds when a reference to `old` is taken out and its reference to `val` is put
in. -/
def swap (ext : ℕ → ℕ) (old val a : ℕ) : ℕ :=
  if a = 0 then ext a else ext a + [old].count a - [val].count a

/-- **A word** of a pair, of a function or of the elements of an array is written. -/
lemma Good.setWord {i val : ℕ} (hg : Good ty L ext s) (ho : s.objs obj = some o)
    (hp : (o.type, .items) ∈ kinds ty) (hi : i < o.size)
    (hval : val ≠ 0 → 0 < ext val ∧ val ∈ L ∨ o.contents i = val)
    (hheld : ∀ p ∈ kinds ty, 0 < swap ext (o.contents i) val p.1)
    (h : Mutate.setWord s obj i val = some s') : Good ty L (swap ext (o.contents i) val) s' := by
  rw [Mutate.setWord, ho, Option.map_some, Option.some.injEq] at h
  subst h
  have hwords : (o.setWord i val).words = o.words.set i val := by
    refine List.ext_getElem (by simp [Obj.words, Obj.setWord]) fun j h1 h2 => ?_
    simp only [Obj.words, Obj.setWord, List.getElem_map, List.getElem_range, List.getElem_set,
      Function.update_apply, eq_comm]
  have hlen : i < o.words.length := by simpa [Obj.words] using hi
  have hget : o.words[i] = o.contents i := by simp [Obj.words]
  refine hg.putItems _ _ ho hp rfl rfl (fun b hb hb0 => ?_) (fun a ha => ?_) (if_pos rfl) hheld
  · rw [hwords] at hb
    rcases List.mem_or_eq_of_mem_set hb with hb | rfl
    · exact .inr hb
    · rcases hval hb0 with ⟨-, hL⟩ | rfl
      · exact .inl hL
      · exact .inr (hget ▸ List.getElem_mem hlen)
  · have hold : [o.contents i].count a ≤ o.words.count a :=
      List.Sublist.count_le a (List.singleton_sublist.2 (hget ▸ List.getElem_mem hlen))
    rw [hwords, List.count_set hlen, hget, swap, if_neg ha]
    simp only [List.count_singleton] at hold ⊢
    by_cases hav : val = a
    · subst hav
      have h1 := hval ha
      simp only [BEq.rfl, if_true]
      by_cases hov : o.contents i = val
      · simp only [hov, BEq.rfl, if_true] at hold ⊢
        omega
      · have h2 := (h1.resolve_right hov).1
        simp only [beq_iff_eq, hov, if_false]
        omega
    · simp only [beq_iff_eq, hav, if_false]
      simp only [beq_iff_eq] at hold
      omega

/-- **An element** is appended. -/
lemma Good.objArrayAppend {arr data : ℕ} (hg : Good ty L ext s) (ho : s.objs arr = some o)
    (harray : o.type = ty.arrayType) (hdata : Plain ty s data) (hroom : Room s [data])
    (h : Mutate.objArrayAppend s arr data = some s') : Good ty L ext s' := by
  obtain ⟨A, hA, hAtype, -⟩ := hg.typed.storage arr o ho harray
  obtain ⟨d, hd, hdtype⟩ := hdata
  set sub := o.contents 0
  have hsub0 : sub ≠ 0 := (hg.mem hA).2.2
  have hdata0 : data ≠ 0 := (hg.mem hd).2.2
  have hp : (ty.subarrayType, .items) ∈ kinds ty := by simp [kinds]
  have hsubdata : sub ≠ data := fun h => hdtype (Option.some.inj (hd.symm.trans (h ▸ hA)) ▸ hAtype)
  have hsubarr : arr ≠ sub := fun h => by
    have heq := Option.some.inj (ho.symm.trans (h ▸ hA))
    have := hg.kind_array hp (hAtype.symm.trans (heq ▸ harray))
    exact absurd this (by decide)
  -- the element is held, and put at the end
  have hhold := hold_eq hd hroom
  set s₁ : St := { s with toSt := s.toSt.put data { d with refcount := d.refcount + 1 } }
  have hg₁ := hg.hold ⟨d, hd, hdtype⟩ hroom hhold
  have hA₁ : s₁.objs sub = some A := (Function.update_of_ne hsubdata ..).trans hA
  obtain ⟨o₁, ho₁, heq₁⟩ := (same_put (w := d.refcount + 1) hd).get ho
  have hput := hg₁.putItems ext { A.setWord A.size data with size := A.size + 1 } hA₁
    (hAtype ▸ hp) rfl rfl (fun b hb _ => by
      rw [words_append, List.mem_append, List.mem_singleton] at hb
      rcases hb with hb | rfl
      · exact .inr hb
      · exact .inl (hg.mem hd).1)
    (fun a _ => by
      rw [words_append, List.count_append, take_apply]
      omega) (by simp [take, hdata0.symm]) fun p hp => (hg.exact.types p hp).2
  set s₂ : St :=
    { s₁ with toSt := s₁.toSt.put sub { A.setWord A.size data with size := A.size + 1 } }
  have ho₂ : s₂.objs arr = some o₁ := (Function.update_of_ne hsubarr ..).trans ho₁
  have hcontents : o₁.contents 0 = sub := congrFun (uncounted_iff.1 heq₁).2.2 0
  have hsame : o₁.setWord 0 sub = o₁ := by
    rw [Obj.setWord, ← hcontents, Function.update_eq_self]
  have hincr : s.toSt.incr data 1 = some s₁.toSt := by
    obtain ⟨t, ht, hts⟩ := Option.map_eq_some_iff.1 hhold
    rw [ht, ← hts]
  have hword : Store.objectAppendWord s₁.toSt sub data = some (s₂.toSt, sub) := by
    rw [Store.objectAppendWord, if_neg hsub0, hA₁, Option.map_some]
  have hself : s₂.toSt.put arr o₁ = s₂.toSt := by
    rw [Store.St.put, ← ho₂, Function.update_eq_self]
  have heq : Mutate.objArrayAppend s arr data = some s₂ := by
    rw [Mutate.objArrayAppend, lift, Store.objArrayAppend, ho, Option.bind_some, Store.objectAppend,
      if_neg (not_or.2 ⟨hsub0, hdata0⟩), hincr, Option.bind_some, hword, Option.bind_some]
    dsimp only
    rw [ho₂, Option.map_some, hsame, hself, Option.map_some]
  obtain rfl := Option.some.inj (heq.symm.trans h)
  exact hput

/-- The tree of a set is exchanged, for one at a fresh address or without elements. -/
lemma Good.setTree {t t' : BTree ℕ} (hg : Good ty L ext s) (ho : s.objs obj = some o)
    (htype : o.type = ty.setType) (ht : s.treeAt (o.contents 0) = some t)
    (hx : ∀ a ≠ obj, ¬ IsRoot ty s a x) (hx0 : x = 0 → t' = .nil)
    (hmem : ∀ b ∈ preorder t', b ≠ 0 → b ∈ L)
    (hcount : ∀ a, ((preorder t).filter (· ≠ 0)).count a + ext a =
      ((preorder t').filter (· ≠ 0)).count a + ext' a)
    (hheld : ∀ p ∈ kinds ty, 0 < ext' p.1) (h : setTree s obj x t' = some s') :
    Good ty L ext' s' := by
  have hp : (ty.setType, .tree) ∈ kinds ty := by simp [kinds]
  have hp' : (o.type, .tree) ∈ kinds ty := htype ▸ hp
  have hstring : o.type ≠ ty.stringType := fun h => absurd (hg.kind_string hp' h) (by decide)
  have hne := hg.type_ne ho hstring
  rw [Mutate.setTree, ho, Option.map_some, Option.some.injEq] at h
  have hself : s'.objs obj = some (o.setWord 0 x) := h ▸ Function.update_self ..
  have hother (a : ℕ) (ha : a ≠ obj) : s'.objs a = s.objs a := h ▸ Function.update_of_ne ha ..
  have hkind : kindOf ty s'.toSt (o.setWord 0 x) = some .tree :=
    hg.kind (fun p hp => by rw [hother _ (hne p hp)]) hp'
  have hkind₀ : kindOf ty s.toSt o = some .tree := hg.kind (fun _ _ => rfl) hp'
  have hcontents : (o.setWord 0 x).contents 0 = x := by simp [Obj.setWord]
  have htree : s'.treeAt x = some t' := by
    subst h
    unfold St.treeAt
    split_ifs with h0
    · rw [hx0 h0]
    · simp
  have hkids : kidsOf ty s obj = (preorder t).filter (· ≠ 0) := by
    rw [kidsOf, ho, Option.bind_some, refsOf, hkind₀, Option.bind_some, ht]
    rfl
  refine hg.edit (o := o.setWord 0 x) (l := preorder t') ho hself rfl rfl hother
    (fun h => absurd (hg.kind_array hp' h) (by decide)) hstring ?_ hmem
    (fun a => hkids ▸ hcount a) hheld
    (fun a ha y hy => ?_) (fun y hr a ha hr' => ?_) (h ▸ rfl) (h ▸ rfl) (h ▸ rfl)
  · rw [refsOf, hkind, Option.bind_some, hcontents, htree]
    rfl
  · have hyx : y ≠ x := fun h => hx a ha (h ▸ hy)
    have hyo : y ≠ o.contents 0 := fun h => ha
      (hg.exact.distinct a obj y hy ⟨hy.1, o, ho, hkind₀, h.symm⟩)
    rw [← h]
    exact (Function.update_of_ne hyx ..).trans (Function.update_of_ne hyo ..)
  · obtain ⟨-, o', ho', -, hc⟩ := hr
    obtain rfl := Option.some.inj (hself.symm.trans ho')
    exact hx a ha (hcontents.symm.trans hc ▸ hr')

/-! ### Deleting and collecting -/

lemma Good.left {R : Finset ℕ} (hg : Good ty L ext s) (h : Left ty ext' s (L \ R) s')
    (hle : ∀ a, ext' a ≤ ext a) (hun : ∀ a ∈ L, a ∈ R → ext' a = 0) : Good ty (L \ R) ext' s' := by
  have hsub : L \ R ⊆ L := Finset.sdiff_subset
  have hgone (a : ℕ) (ha : s.objs a = none) : s'.objs a = none := by
    by_contra hne
    exact (hg.exact.live a).1 (hsub ((h.exact.live a).2 hne)) ha
  refine ⟨h.exact, hg.typed.left hg.exact h hsub hle, fun p hp => ?_, fun a ha => ?_,
    fun a ha => ?_, h.next.symm ▸ hg.pos⟩
  · have hk := congrArg (Option.map Obj.type) (h.kept _ (h.exact.types p hp).1)
    rw [Option.map_map, Option.map_map] at hk
    exact hk.trans (hg.strings p hp)
  · by_cases haL : a ∈ L
    · refine hun a haL ?_
      by_contra hR
      exact (h.exact.live a).1 (Finset.mem_sdiff.2 ⟨haL, hR⟩) ha
    · have h0 := hg.unheld a (by
        by_contra hne
        exact haL ((hg.exact.live a).2 hne))
      have := hle a
      omega
  · exact hgone a (hg.fresh a (h.next ▸ ha))

/-- **Dropping** a reference -/
lemma Good.drop {n : ℕ} (root : List ℕ → ℕ) (hg : Good ty L ext s) (hn : L.card < n) (hv : v ∈ L)
    (hext : 0 < ext v) (htype : ∀ p ∈ kinds ty, p.1 = v → 1 < ext v) :
    ∃ s' L', objectDelete ty root n s v = some s' ∧ L' ⊆ L ∧ Good ty L' (give ext v) s' := by
  obtain ⟨s', R, hdel, hleft, -, hiff⟩ := objectDelete_frees root hg.exact hg.typed hn hv hext htype
  have hgive : (fun a => ext a - [v].count a) = give ext v := funext fun a => give_apply.symm
  rw [hgive] at hleft
  refine ⟨s', L \ R, hdel, Finset.sdiff_subset, hg.left hleft
    (fun a => give_apply.trans_le (Nat.sub_le ..)) fun a ha hR => ?_⟩
  obtain ⟨-, -, hdropped, -, -⟩ := (hiff a ha).1 hR
  rw [give_apply, hdropped, Nat.sub_self]

lemma unheld_of_garbage {F : Set ℕ} (h : a ∈ garbage (kidsOf ty s) L (outer s L ext) F) :
    ext a = 0 :=
  Nat.eq_zero_of_add_eq_zero_left (Nat.eq_zero_of_not_pos fun hpos => not_held h (.inl hpos))

/-- **Collecting** -/
lemma Good.collect {n : ℕ} (setDelete : Store.St → ℕ → Option Store.St) (root : List ℕ → ℕ)
    (hg : Good ty L ext s) (hn : L.card < n) : ∃ s' L', gcCollect ty setDelete root n s = some s' ∧
      L' ⊆ L ∧ Good ty L' ext s' ∧
      ∀ a, a ∈ L' ↔ a ∈ L ∧
        a ∉ garbage (kidsOf ty s) L (outer s L ext) {f | f + 8 ∈ s.gcSet} := by
  obtain ⟨s', R, hcol, hleft, hiff⟩ := gcCollect_frees setDelete root hg.exact hn
  exact ⟨s', L \ R, hcol, Finset.sdiff_subset, hg.left hleft (fun _ => le_rfl)
    fun a _ hR => unheld_of_garbage ((hiff a).1 hR), fun a => by rw [Finset.mem_sdiff, hiff]⟩

/-- **Deleting a function** -/
lemma Good.delObj {n d : ℕ} (setDelete : Store.St → ℕ → Option Store.St) (root : List ℕ → ℕ)
    (hg : Good ty L ext s) (hn : L.card < n) (hd : d + 8 ∈ s.gcSet) :
    ∃ s' L' k, gcDelObj ty setDelete root n s d = some (s', k) ∧ L' ⊆ L ∧ Good ty L' ext s' := by
  obtain ⟨s', R, hdel, -, hleft, hiff⟩ := gcDelObj_frees setDelete root hg.exact hn hd
  exact ⟨s', L \ R, _, hdel, Finset.sdiff_subset, hg.left hleft
    (fun _ => le_rfl) fun a _ hR => unheld_of_garbage ((hiff a).1 hR)⟩

/-! ### Elements of sets -/

/-- **An element** is added, where there is no equal one. -/
lemma Good.setAdd {t t' : BTree ℕ} {data : ℕ} (hg : Good ty L ext s) (ho : s.objs obj = some o)
    (htype : o.type = ty.setType) (ht : s.treeAt (o.contents 0) = some t)
    (hperm : (preorder t').Perm (data :: preorder t)) (hx0 : x ≠ 0)
    (hx : ∀ a ≠ obj, ¬ IsRoot ty s a x) (hdata : Plain ty s data) (hroom : Room s [data])
    (h : setAdd s obj data (some (x, t')) = some s') : Good ty L ext s' := by
  obtain ⟨d, hd, hdtype⟩ := hdata
  have hhold := hold_eq hd hroom
  have hg₁ := hg.hold ⟨d, hd, hdtype⟩ hroom hhold
  have hsame := same_put (w := d.refcount + 1) hd
  obtain ⟨o₁, ho₁, heq₁⟩ := hsame.get ho
  obtain ⟨htype₁, -, hcontents₁⟩ := uncounted_iff.1 heq₁
  obtain ⟨hdL, -, hd0⟩ := hg.mem hd
  rw [Mutate.setAdd, if_pos hd0, hhold, Option.bind_some] at h
  have hfilter (l : List ℕ) : (data :: l).filter (· ≠ 0) = data :: l.filter (· ≠ 0) :=
    List.filter_cons_of_pos (decide_eq_true hd0)
  have hperm' : ((preorder t').filter (· ≠ 0)).Perm (data :: (preorder t).filter (· ≠ 0)) := by
    rw [← hfilter]
    exact hperm.filter _
  have hkind : kindOf ty s.toSt o = some .tree := hg.kind (fun _ _ => rfl) (by simp [kinds, htype])
  refine hg₁.setTree ho₁ (htype₁.trans htype) (by rw [hcontents₁]; exact ht)
    (fun a ha hr => hx a ha ((isRoot_congr hsame.objs).1 hr)) (fun h0 => absurd h0 hx0)
    (fun b hb hb0 => ?_) (fun a => ?_) (fun p hp => (hg.exact.types p hp).2) h
  · rcases List.mem_cons.1 (hperm.mem_iff.1 hb) with rfl | hb
    · exact hdL
    · refine hg.exact.closed obj (hg.mem ho).1 b ?_
      rw [kidsOf, ho, Option.bind_some, refsOf, hkind, Option.bind_some, ht]
      exact List.mem_filter.2 ⟨hb, decide_eq_true hb0⟩
  · rw [hperm'.count_eq, take_apply, count_cons' (l := (preorder t).filter (· ≠ 0))]
    omega

/-- **An element** is taken out; the reference to it is the program's. -/
lemma Good.setRemove {t t' : BTree ℕ} {data : ℕ} (hg : Good ty L ext s) (ho : s.objs obj = some o)
    (htype : o.type = ty.setType) (ht : s.treeAt (o.contents 0) = some t)
    (hperm : (preorder t).Perm (data :: preorder t')) (hx0 : x = 0 → t' = .nil)
    (hx : ∀ a ≠ obj, ¬ IsRoot ty s a x) (hdata : data ≠ 0)
    (h : Mutate.setTree s obj x t' = some s') : Good ty L (take ext data) s' := by
  have hkind : kindOf ty s.toSt o = some .tree := hg.kind (fun _ _ => rfl) (by simp [kinds, htype])
  have hperm' : ((preorder t).filter (· ≠ 0)).Perm (data :: (preorder t').filter (· ≠ 0)) := by
    rw [← List.filter_cons_of_pos (p := fun x => decide (x ≠ 0)) (decide_eq_true hdata)]
    exact hperm.filter _
  refine hg.setTree ho htype ht hx hx0 (fun b hb hb0 => ?_) (fun a => ?_) (fun p hp => ?_) h
  · refine hg.exact.closed obj (hg.mem ho).1 b ?_
    rw [kidsOf, ho, Option.bind_some, refsOf, hkind, Option.bind_some, ht]
    exact List.mem_filter.2 ⟨hperm.mem_iff.2 (List.mem_cons_of_mem _ hb), decide_eq_true hb0⟩
  · rw [hperm'.count_eq, take_apply, count_cons' (l := (preorder t').filter (· ≠ 0))]
    omega
  · have := (hg.exact.types p hp).2
    rw [take_apply]
    omega

/-! ### Runs -/

/-- A heap, and the references that the program holds. -/
structure World where
  heap : St
  ext : ℕ → ℕ

/-- There are fewer than `n` objects. -/
def Fits (s : St) (n : ℕ) : Prop := ∀ L : Finset ℕ, (∀ a, a ∈ L ↔ s.objs a ≠ none) → L.card < n

/-- The program holds the reference, and another one to a type. -/
def Holds (ty : Types) (ext : ℕ → ℕ) (a : ℕ) : Prop :=
  0 < ext a ∧ ∀ p ∈ kinds ty, p.1 = a → 1 < ext a

variable (ty) (setDelete : Store.St → ℕ → Option Store.St) (root : List ℕ → ℕ)

/-- What a program can do next. References to subarrays are not handed out; a count has room for
another reference. -/
inductive Next : World → World → Prop
  | object {s s' : St} {ext : ℕ → ℕ} {type obj : ℕ} {ws : List ℕ}
      (hp : (type, .leaf) ∈ kinds ty) (hroom : Room s [type])
      (h : object s type ws = some (s', obj)) : Next ⟨s, ext⟩ ⟨s', ext⟩
  | set {s s' : St} {ext : ℕ → ℕ} {obj : ℕ} (hroom : Room s [ty.setType])
      (h : Mutate.set ty s = some (s', obj)) : Next ⟨s, ext⟩ ⟨s', ext⟩
  | array {s s' : St} {ext : ℕ → ℕ} {obj : ℕ} (hroom : Room s [ty.subarrayType, ty.arrayType])
      (h : objArray ty s = some (s', obj)) : Next ⟨s, ext⟩ ⟨s', ext⟩
  | pair {s s' : St} {ext : ℕ → ℕ} {a b obj : ℕ} (ha : Plain ty s a) (hb : Plain ty s b)
      (hroom : Room s [ty.cellType, a, b]) (h : pair ty s a b = some (s', obj)) :
      Next ⟨s, ext⟩ ⟨s', ext⟩
  | function {s s' : St} {ext : ℕ → ℕ} {ns args exp f n : ℕ} (hns : Plain ty s ns)
      (hargs : Plain ty s args) (hexp : Plain ty s exp)
      (hroom : Room s [ty.functionType, ns, args, exp]) (hlen : s.gcSet.length + 1 < wordMod)
      (h : newFnOf ty root n s ns args exp = some (s', f)) : Next ⟨s, ext⟩ ⟨s', ext⟩
  | append {s s' : St} {ext : ℕ → ℕ} {arr data : ℕ} {o : Obj} (ho : s.objs arr = some o)
      (harray : o.type = ty.arrayType) (hdata : Plain ty s data) (hroom : Room s [data])
      (h : objArrayAppend s arr data = some s') : Next ⟨s, ext⟩ ⟨s', ext⟩
  | add {s s' : St} {ext : ℕ → ℕ} {set data x : ℕ} {o : Obj} {t t' : BTree ℕ}
      (ho : s.objs set = some o) (htype : o.type = ty.setType)
      (ht : s.treeAt (o.contents 0) = some t) (hperm : (preorder t').Perm (data :: preorder t))
      (hx0 : x ≠ 0) (hx : ∀ a ≠ set, ¬ IsRoot ty s a x) (hdata : Plain ty s data)
      (hroom : Room s [data]) (h : setAdd s set data (some (x, t')) = some s') :
      Next ⟨s, ext⟩ ⟨s', ext⟩
  | found {s s' : St} {ext : ℕ → ℕ} {set data : ℕ} (hdata : Plain ty s data) (hroom : Room s [data])
      (h : setAdd s set data none = some s') : Next ⟨s, ext⟩ ⟨s', take ext data⟩
  | remove {s s' : St} {ext : ℕ → ℕ} {set data x : ℕ} {o : Obj} {t t' : BTree ℕ}
      (ho : s.objs set = some o) (htype : o.type = ty.setType)
      (ht : s.treeAt (o.contents 0) = some t) (hperm : (preorder t).Perm (data :: preorder t'))
      (hx0 : x = 0 → t' = .nil) (hx : ∀ a ≠ set, ¬ IsRoot ty s a x) (hdata : data ≠ 0)
      (h : setTree s set x t' = some s') : Next ⟨s, ext⟩ ⟨s', take ext data⟩
  | write {s s' : St} {ext : ℕ → ℕ} {obj i val : ℕ} {o : Obj} (ho : s.objs obj = some o)
      (hp : (o.type, .items) ∈ kinds ty) (hi : i < o.size)
      (hval : val ≠ 0 → 0 < ext val ∨ o.contents i = val)
      (hheld : ∀ p ∈ kinds ty, 0 < swap ext (o.contents i) val p.1)
      (h : setWord s obj i val = some s') : Next ⟨s, ext⟩ ⟨s', swap ext (o.contents i) val⟩
  | hold {s s' : St} {ext : ℕ → ℕ} {a : ℕ} (ha : Plain ty s a) (hroom : Room s [a])
      (h : hold s a = some s') : Next ⟨s, ext⟩ ⟨s', take ext a⟩
  | lower {s s' : St} {ext : ℕ → ℕ} {a : ℕ} (ha : Plain ty s a) (hext : Holds ty ext a)
      (h : lower s a = some s') : Next ⟨s, ext⟩ ⟨s', give ext a⟩
  | drop {s s' : St} {ext : ℕ → ℕ} {a n : ℕ} (hn : Fits s n) (hext : Holds ty ext a)
      (h : objectDelete ty root n s a = some s') : Next ⟨s, ext⟩ ⟨s', give ext a⟩
  | collect {s s' : St} {ext : ℕ → ℕ} {n : ℕ} (hn : Fits s n)
      (h : gcCollect ty setDelete root n s = some s') : Next ⟨s, ext⟩ ⟨s', ext⟩
  | delObj {s s' : St} {ext : ℕ → ℕ} {n d k : ℕ} (hn : Fits s n)
      (h : gcDelObj ty setDelete root n s d = some (s', k)) : Next ⟨s, ext⟩ ⟨s', ext⟩

variable {ty setDelete root}

/-- **One step** keeps the counts exact. -/
lemma Good.next {w w' : World} (hg : ∃ L, Good ty L w.ext w.heap)
    (h : Next ty setDelete root w w') :
    ∃ L, Good ty L w'.ext w'.heap := by
  obtain ⟨L, hg⟩ := hg
  have hheld {a : ℕ} (ha : 0 < w.ext a) : a ∈ L := by
    by_contra haL
    have := hg.unheld a (by
      by_contra hne
      exact haL ((hg.exact.live a).2 hne))
    omega
  cases h with
  | object hp hroom h => exact ⟨_, hg.object hp hroom h⟩
  | set hroom h => exact ⟨_, hg.set hroom h⟩
  | array hroom h => exact ⟨_, hg.objArray hroom h⟩
  | pair ha hb hroom h => exact ⟨_, hg.pair ha hb hroom h⟩
  | function hns hargs hexp hroom hlen h => exact ⟨_, hg.newFnOf hns hargs hexp hroom hlen h⟩
  | append ho harray hdata hroom h => exact ⟨_, hg.objArrayAppend ho harray hdata hroom h⟩
  | add ho htype ht hperm hx0 hx hdata hroom h =>
    exact ⟨_, hg.setAdd ho htype ht hperm hx0 hx hdata hroom h⟩
  | found hdata hroom h =>
    obtain ⟨d, hd, -⟩ := id hdata
    rw [Mutate.setAdd, if_pos (hg.mem hd).2.2, Option.bind_eq_some_iff] at h
    obtain ⟨s₁, hs₁, heq⟩ := h
    exact ⟨_, Option.some.inj heq ▸ hg.hold hdata hroom hs₁⟩
  | remove ho htype ht hperm hx0 hx hdata h =>
    exact ⟨_, hg.setRemove ho htype ht hperm hx0 hx hdata h⟩
  | write ho hp hi hval hheld' h =>
    exact ⟨_, hg.setWord ho hp hi (fun h0 => (hval h0).imp_left fun hv => ⟨hv, hheld hv⟩) hheld' h⟩
  | hold ha hroom h => exact ⟨_, hg.hold ha hroom h⟩
  | lower ha hext h => exact ⟨_, hg.lower ha hext.1 hext.2 h⟩
  | drop hn hext h =>
    obtain ⟨s₁, L', hdel, -, hg'⟩ := hg.drop root (hn L hg.exact.live) (hheld hext.1) hext.1 hext.2
    exact ⟨L', Option.some.inj (hdel.symm.trans h) ▸ hg'⟩
  | collect hn h =>
    obtain ⟨s₁, L', hcol, -, hg', -⟩ := hg.collect setDelete root (hn L hg.exact.live)
    exact ⟨L', Option.some.inj (hcol.symm.trans h) ▸ hg'⟩
  | @delObj s _ _ _ d _ hn h =>
    by_cases hd : d + 8 ∈ s.gcSet
    · obtain ⟨s₁, L', k, hdel, -, hg'⟩ := hg.delObj setDelete root (hn L hg.exact.live) hd
      obtain ⟨rfl, -⟩ := Prod.mk.inj (Option.some.inj (hdel.symm.trans h))
      exact ⟨L', hg'⟩
    · rw [gcDelObj, if_neg hd] at h
      obtain ⟨rfl, -⟩ := Prod.mk.inj (Option.some.inj h)
      exact ⟨L, hg⟩

/-- The types, as `init_types` makes them; the set of the collector is a set, too. -/
def startTypes : List (ℕ × Obj) :=
  [(8, .ofWords 9 8 [115, 116, 114]), (16, .ofWords 1 8 [110, 117, 109]),
    (24, .ofWords 1 8 [97, 114, 114]), (32, .ofWords 1 8 [115, 97, 114]),
    (40, .ofWords 2 8 [115, 101, 116]), (48, .ofWords 1 8 [102, 117, 110]),
    (56, .ofWords 1 8 [99, 101, 108]), (64, .ofWords 1 8 [98, 99, 111])]

/-- The world at the start: the program holds the types. -/
def start : World :=
  ⟨⟨⟨ofTable startTypes, 72⟩, fun _ => none, [], 0⟩,
    fun a => if a = 40 then 2 else if a ∈ startTypes.map Prod.fst then 1 else 0⟩

lemma start_good : Good eightTypes (startTypes.map Prod.fst).toFinset start.ext start.heap := by
  have hmem {a : ℕ} {o : Obj} (ho : start.heap.objs a = some o) : (a, o) ∈ startTypes :=
    mem_of_ofTable ho
  have hnone {a : ℕ} (ha : start.heap.objs a = none) : a ∉ startTypes.map Prod.fst := fun h =>
    ofTable_ne_none.1 (List.mem_toFinset.2 h) ha
  refine ⟨exact_ofTable rfl (by decide) (by decide) (by decide) (by decide) (by decide) (by decide)
    (by decide) (by decide) (by decide) (by decide) (by decide), ⟨by decide, fun a o ho => ?_,
    fun a o ho harray => ?_, by decide⟩, by decide, fun a ha => ?_, fun a ha => ?_, by decide⟩
  · have hall : ∀ p ∈ startTypes, ∃ q ∈ kinds eightTypes, p.2.type = q.1 := by decide
    exact hall _ (hmem ho)
  · have hall : ∀ p ∈ startTypes, p.2.type ≠ eightTypes.arrayType := by decide
    exact absurd harray (hall _ (hmem ho))
  · have hno := hnone ha
    have h40 : a ≠ 40 := by
      rintro rfl
      exact hno (by decide)
    exact (if_neg h40).trans (if_neg hno)
  · by_contra hne
    obtain ⟨o, ho⟩ := Option.ne_none_iff_exists'.1 hne
    have hall : ∀ p ∈ startTypes, p.1 < 72 := by decide
    exact (hall _ (hmem ho)).not_ge ha

/-- The runs of a program, with any order in which trees are emptied. -/
def programs (setDelete : Store.St → ℕ → Option Store.St) (root : List ℕ → ℕ) : System World where
  init w := w = start
  step := Next eightTypes setDelete root

/-- The counts stay exact. -/
lemma run_good {setDelete : Store.St → ℕ → Option Store.St} {root : List ℕ → ℕ} {w : World}
    (hr : (programs setDelete root).Reachable w) : ∃ L, Good eightTypes L w.ext w.heap := by
  refine System.Invariant.reachable (S := programs setDelete root)
    (I := fun w => ∃ L, Good eightTypes L w.ext w.heap) ⟨fun w hw => ?_, fun w w' hg hs => ?_⟩ hr
  · exact hw ▸ ⟨_, start_good⟩
  · exact Good.next hg hs

/-- **In every run** each count is the number of references; what a held reference leads to is
there; and no deletion and no collection touches an object that is gone. -/
theorem run_safe (setDelete : Store.St → ℕ → Option Store.St) (root : List ℕ → ℕ) {w : World}
    (hr : (programs setDelete root).Reachable w) :
    (∃ L, Good eightTypes L w.ext w.heap) ∧
    (∀ a b, 0 < w.ext a → Reach (kidsOf eightTypes w.heap) a b → w.heap.objs b ≠ none) ∧
    ∀ n, Fits w.heap n →
      (∀ a, Holds eightTypes w.ext a → objectDelete eightTypes root n w.heap a ≠ none) ∧
      gcCollect eightTypes setDelete root n w.heap ≠ none ∧
      ∀ d, gcDelObj eightTypes setDelete root n w.heap d ≠ none := by
  have hgood := run_good hr
  refine ⟨hgood, ?_⟩
  obtain ⟨L, hg⟩ := hgood
  have hheld {a : ℕ} (ha : 0 < w.ext a) : a ∈ L := by
    by_contra haL
    have := hg.unheld a (by
      by_contra hne
      exact haL ((hg.exact.live a).2 hne))
    omega
  refine ⟨fun a b ha hab => (hg.exact.live b).1 (reach_mem hg.exact.closed (hheld ha) hab),
    fun n hn => ⟨fun a ha => ?_, ?_, fun d => ?_⟩⟩
  · obtain ⟨s', L', hdel, -⟩ := hg.drop root (hn L hg.exact.live) (hheld ha.1) ha.1 ha.2
    rw [hdel]
    exact Option.some_ne_none _
  · obtain ⟨s', L', hcol, -⟩ := hg.collect setDelete root (hn L hg.exact.live)
    rw [hcol]
    exact Option.some_ne_none _
  · by_cases hd : d + 8 ∈ w.heap.gcSet
    · obtain ⟨s', L', k, hdel, -⟩ := hg.delObj setDelete root (hn L hg.exact.live) hd
      rw [hdel]
      exact Option.some_ne_none _
    · rw [gcDelObj, if_neg hd]
      exact Option.some_ne_none _

/-! A program: an array with a number, a set with that number, and a function of both; the number
and the array are held, the array is dropped, and what is left of the function is collected. -/

/-- What an operation leaves -/
def after (s : St) (r : Option St) : St := r.getD s

def made (s : St) (r : Option (St × ℕ)) : St := after s (r.map Prod.fst)

lemma eq_after {r : Option St} (h : r.isSome) : r = some (after s r) := by
  obtain ⟨s', rfl⟩ := Option.isSome_iff_exists.1 h
  rfl

lemma eq_made {r : Option (St × ℕ)} (h : r.isSome) : ∃ obj, r = some (made s r, obj) := by
  obtain ⟨⟨s', obj⟩, rfl⟩ := Option.isSome_iff_exists.1 h
  exact ⟨obj, rfl⟩

def withArray : St := made start.heap (objArray eightTypes start.heap)
def withNumber : St := made withArray (object withArray 16 [5, 0])
def appended : St := after withNumber (objArrayAppend withNumber 80 88)
def withSet : St := made appended (Mutate.set eightTypes appended)
def added : St := after withSet (setAdd withSet 96 88 (some (800, .node 0 .nil 88 .nil)))
def withFn : St := made added (newFnOf eightTypes (fun _ => 0) 200 added 96 80 88)
def held : St := after withFn (hold withFn 88)
def bothHeld : St := after held (hold held 80)
def dropped : St := after bothHeld (objectDelete eightTypes (fun _ => 0) 200 bothHeld 80)
def collected : St :=
  after dropped (gcCollect eightTypes (fun s _ => some s) (fun _ => 0) 200 dropped)

/-- What the program holds at the end: the number, and the types -/
def finalExt : ℕ → ℕ := give (take (take start.ext 88) 80) 80

lemma Good.room_of_le (hg : ∃ L, Good ty L ext s) (hle : ∀ a < s.next, rc s a ≤ 20)
    (hl : l.length ≤ 20) : Room s l := fun a => by
  obtain ⟨L, hg⟩ := hg
  have hcount : l.count a ≤ l.length := List.count_le_length
  have hrc : rc s a ≤ 20 := by
    by_cases ha : a < s.next
    · exact hle a ha
    · rw [rc, hg.fresh a (not_lt.1 ha)]
      exact Nat.zero_le _
  omega

lemma Good.fits (hg : ∃ L, Good ty L ext s) {n : ℕ} (hn : s.next < n) : Fits s n := fun L hL => by
  obtain ⟨_, hg⟩ := hg
  have hsub : L ⊆ Finset.range s.next := fun a ha => Finset.mem_range.2 <| not_le.1 fun hle =>
    (hL a).1 ha (hg.fresh a hle)
  calc L.card ≤ (Finset.range s.next).card := Finset.card_le_card hsub
    _ = s.next := Finset.card_range _
    _ < n := hn

lemma plain_of {t : ℕ} (h : (s.objs a).map Obj.type = some t) (ht : t ≠ ty.subarrayType) :
    Plain ty s a := by
  obtain ⟨o, ho, rfl⟩ := Option.map_eq_some_iff.1 h
  exact ⟨o, ho, ht⟩

/-- A run of a program, where the sets need no emptying -/
abbrev Runs (s : St) (ext : ℕ → ℕ) : Prop :=
  (programs (fun s _ => some s) fun _ => 0).Reachable ⟨s, ext⟩

lemma Runs.room (h : Runs s ext) (hle : ∀ a < s.next, rc s a ≤ 20) (hl : l.length ≤ 20) :
    Room s l := Good.room_of_le (run_good h) hle hl

/-- The function is made. -/
lemma runs_withFn : Runs withFn start.ext := by
  have h₀ : Runs start.heap start.ext := .init rfl
  obtain ⟨_, e₁⟩ := eq_made (s := start.heap) (r := objArray eightTypes start.heap)
    (by decide +kernel)
  have h₁ : Runs withArray start.ext :=
    h₀.step (.array (h₀.room (by decide +kernel) (by decide)) e₁)
  obtain ⟨_, e₂⟩ := eq_made (s := withArray) (r := object withArray 16 [5, 0]) (by decide +kernel)
  have h₂ : Runs withNumber start.ext :=
    h₁.step (.object (by decide) (h₁.room (by decide +kernel) (by decide)) e₂)
  obtain ⟨o, ho, harray⟩ : ∃ o, withNumber.objs 80 = some o ∧ o.type = 24 :=
    Option.map_eq_some_iff.1 (by decide +kernel : (withNumber.objs 80).map Obj.type = some 24)
  have e₃ : objArrayAppend withNumber 80 88 = some appended := eq_after (by decide +kernel)
  have h₃ : Runs appended start.ext :=
    h₂.step (.append ho harray (plain_of (t := 16) (by decide +kernel) (by decide))
      (h₂.room (by decide +kernel) (by decide)) e₃)
  obtain ⟨_, e₄⟩ := eq_made (s := appended) (r := Mutate.set eightTypes appended)
    (by decide +kernel)
  have h₄ : Runs withSet start.ext :=
    h₃.step (.set (h₃.room (by decide +kernel) (by decide)) e₄)
  obtain ⟨o, ho, hset⟩ : ∃ o, withSet.objs 96 = some o ∧ (o.type, o.contents 0) = (40, 0) :=
    Option.map_eq_some_iff.1
      (by decide +kernel : (withSet.objs 96).map (fun o => (o.type, o.contents 0)) = some (40, 0))
  obtain ⟨htype, hroot⟩ := Prod.mk.inj hset
  have e₅ : setAdd withSet 96 88 (some (800, .node 0 .nil 88 .nil)) = some added :=
    eq_after (by decide +kernel)
  have h₅ : Runs added start.ext := by
    refine h₄.step (.add (t := .nil) ho htype ?_ (.refl _) (by decide) ?_
      (plain_of (t := 16) (by decide +kernel) (by decide)) (h₄.room (by decide +kernel) (by decide))
      e₅)
    · rw [hroot]
      rfl
    · -- no object has such a word in front
      rintro a - ⟨-, o', ho', -, hc⟩
      have hno : ∀ a < withSet.next, (withSet.objs a).map (·.contents 0) ≠ some 800 := by
        decide +kernel
      obtain ⟨L, hg⟩ := run_good h₄
      refine hno a (not_le.1 fun hle => ?_) (by rw [ho', Option.map_some, hc])
      rw [hg.fresh a hle] at ho'
      cases ho'
  obtain ⟨_, e₆⟩ := eq_made (s := added)
    (r := newFnOf eightTypes (fun _ => 0) 200 added 96 80 88) (by decide +kernel)
  exact h₅.step (.function (plain_of (t := 40) (by decide +kernel) (by decide))
    (plain_of (t := 24) (by decide +kernel) (by decide))
    (plain_of (t := 16) (by decide +kernel) (by decide))
    (h₅.room (by decide +kernel) (by decide)) (by decide +kernel) e₆)

/-- References are held and dropped, and the rest is collected. -/
lemma runs_collected : Runs collected finalExt := by
  have h₆ := runs_withFn
  have h₇ : Runs held (take start.ext 88) :=
    h₆.step (.hold (plain_of (t := 16) (by decide +kernel) (by decide))
      (h₆.room (by decide +kernel) (by decide)) (eq_after (by decide +kernel)))
  have h₈ : Runs bothHeld (take (take start.ext 88) 80) :=
    h₇.step (.hold (plain_of (t := 24) (by decide +kernel) (by decide))
      (h₇.room (by decide +kernel) (by decide)) (eq_after (by decide +kernel)))
  have h₉ : Runs dropped finalExt :=
    h₈.step (.drop (a := 80) (n := 200) (Good.fits (run_good h₈) (by decide +kernel))
      ⟨by decide +kernel, by decide +kernel⟩ (eq_after (by decide +kernel)))
  exact h₉.step (.collect (n := 200) (Good.fits (run_good h₉) (by decide +kernel))
    (eq_after (by decide +kernel)))

/-- The number stays; the array, the set and the function are gone. -/
theorem run_safe_program :
    ((∃ L, Good eightTypes L finalExt collected) ∧
      (∀ a b, 0 < finalExt a → Reach (kidsOf eightTypes collected) a b →
        collected.objs b ≠ none) ∧
      ∀ n, Fits collected n →
        (∀ a, Holds eightTypes finalExt a →
          objectDelete eightTypes (fun _ => 0) n collected a ≠ none) ∧
        gcCollect eightTypes (fun s _ => some s) (fun _ => 0) n collected ≠ none ∧
        ∀ d, gcDelObj eightTypes (fun s _ => some s) (fun _ => 0) n collected d ≠ none) ∧
    rc collected 88 = 1 ∧ collected.objs 80 = none ∧ collected.objs 96 = none ∧
    collected.objs 104 = none :=
  ⟨run_safe _ _ runs_collected, by decide +kernel, by decide +kernel, by decide +kernel,
    by decide +kernel⟩

end LispMachine.MutateRuns
