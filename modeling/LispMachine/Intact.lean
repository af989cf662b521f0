import LispMachine.Growth

/-!
Growth that is refused.

An append that finds no room should leave the container and the counts of references as they were.
The operation that appends a word does; those built on it raise a count, or overwrite the only
pointer to the container, before they know.
-/

namespace LispMachine.Intact

open LispMachine.Memory LispMachine.Alloc LispMachine.HeapInv LispMachine.Heap
open LispMachine.HeapRuns LispMachine.HeapFrame LispMachine.Object LispMachine.NumObj
open LispMachine.NumHeap (objectExpand)
open LispMachine.Containers LispMachine.Sizes LispMachine.AsmHeapInv LispMachine.Growth

variable {h sz : ℕ} {s s' s₁ : HSt} {a arr b d i j k st v : ℕ} {n ws : List ℕ}

/-! ### A reference more -/

lemma canAppend_set (hs : Sound h sz s) (ha : a + 1 ∈ s.live) (hb : b ∈ s.live)
    (hi : i < getMemSz s.mem b) :
    CanAppend h sz (s.set (b + i) v) a k ↔ CanAppend h sz s a k := by
  have hw : Wrote h sz (fun _ _ => True) s (s.set (b + i) v) := (Wrote.refl hs).set v hb hi trivial
  rw [CanAppend, CanAppend, noRoom_set hs hb hi, hw.memSz _ ha]

/-- The count of an object is raised. -/
lemma counted (hs : Sound h sz s) (hn : NumAt s a n) (hd : d + 1 ∈ s.live) :
    Wrote h sz (fun c i => c = d + 1 ∧ i = 0) s (incRefcount s d 1) ∧
      NumAt (incRefcount s d 1) a n ∧
      (CanAppend h sz (incRefcount s d 1) a k ↔ CanAppend h sz s a k) := by
  have hw : Wrote h sz (fun c i => c = d + 1 ∧ i = 0) s (incRefcount s d 1) :=
    (Wrote.refl hs).incRefcount 1 hd ⟨rfl, rfl⟩
  have hmin := (hs.bounds hd).2.2.1
  exact ⟨hw, hn.ext hw.ext (by omega) (fun i _ => by omega),
    canAppend_set (i := 0) hs hn.live hd (by omega)⟩

lemma incRefcount_ne (s : HSt) (d : ℕ) : incRefcount s d 1 ≠ s := by
  intro heq
  have h1 : wadd (s.mem (refcount d)) 1 = s.mem (refcount d) :=
    (set_self ..).symm.trans (congrArg (fun s => s.mem (refcount d)) heq)
  unfold wadd wordMod at h1
  omega

/-! ### Appending a reference -/

/-- What an append of `v` to the object at `a` should do: append it, in the state `s₁` in which it
has been counted, or else leave the state `s`. -/
def Appends (h sz : ℕ) (s s₁ : HSt) (a : ℕ) (n : List ℕ) (v : ℕ) (r : Option (HSt × ℕ)) : Prop :=
  r = some (s, 0) ∨
    ∃ s' b, r = some (s', b) ∧ b ≠ 0 ∧ ObjAppended h sz s₁ s' a b (n ++ [v])

/-- **`object_append`** leaves the state as it was if there is no element, but not if there is no
room. -/
lemma objectAppend_iff (hs : Sound h sz s) (hn : NumAt s a n) (hd : d = 0 ∨ d + 1 ∈ s.live) :
    Appends h sz s (incRefcount s d 1) a n (8 * d) (objectAppend h s a d) ↔
      d = 0 ∨ CanAppend h sz s a n.length := by
  have ha := hs.bounds hn.live
  by_cases hd0 : d = 0
  · refine iff_of_true (.inl ?_) (.inl hd0)
    rw [objectAppend, if_pos (.inr hd0)]
  have hd := hd.resolve_left hd0
  obtain ⟨hw, hn₁, hcan⟩ := counted (k := n.length) hs hn hd
  rw [or_iff_right hd0, objectAppend, if_neg (by omega), ← hcan]
  rcases append_obj (8 * d) hw.sound hn₁ with ⟨h1, h2⟩ | ⟨s', b, h1, h0, h2, h3⟩
  · refine iff_of_false ?_ h2
    rintro (h3 | ⟨s', b, h3, h0, -⟩)
    · exact incRefcount_ne s d (Prod.mk.inj (Option.some.inj (h1.symm.trans h3))).1
    · exact h0 (Prod.mk.inj (Option.some.inj (h1.symm.trans h3))).2.symm
  · exact iff_of_true (.inr ⟨s', b, h1, h0, h3⟩) h2

/-! ### Appending to an array of objects -/

/-- The array of objects at `arr` has the elements `n`, in the storage at `st`. -/
structure StorageAt (s : HSt) (arr st : ℕ) (n : List ℕ) : Prop where
  live : arr + 1 ∈ s.live
  room : 4 ≤ getMemSz s.mem (arr + 1)
  ptr : s.mem (contents arr 0) = 8 * st
  ne : arr ≠ st
  elems : NumAt s st n

/-- What an append of `d` to the array should do. -/
def ArrayAppends (h sz : ℕ) (s : HSt) (arr : ℕ) (n : List ℕ) (d : ℕ) (r : Option HSt) : Prop :=
  ∃ s' st, r = some s' ∧ Sound h sz s' ∧ (StorageAt s' arr st (n ++ [8 * d]) ∨
    StorageAt s' arr st n ∧ ∀ o, o + 1 ∈ s.live → s'.mem (refcount o) = s.mem (refcount o))

/-- An array whose pointer has been overwritten has no elements. -/
lemma lost (hs : Sound h sz s) : ¬ StorageAt (s.setPtr (contents arr 0) 0) arr st n := by
  intro ha
  have hst : st = 0 := by
    have h1 := ha.ptr
    rw [show (s.setPtr (contents arr 0) 0).mem (contents arr 0) = 8 * 0 from setPtr_self ..] at h1
    omega
  have h2 := hs.bounds ha.elems.live
  omega

lemma not_arrayAppends (hs : Sound h sz s₁)
    (hr : objectAppend h s st d = some (s₁, 0)) (ha : s.mem (contents arr 0) = 8 * st) :
    ¬ ArrayAppends h sz s arr n d (objArrayAppend h s arr d) := by
  rintro ⟨s', st', h1, -, h2⟩
  rw [objArrayAppend, ptr_of_eq ha, hr, Option.map_some] at h1
  obtain rfl := Option.some.inj h1
  exact h2.elim (lost hs) fun h3 => lost hs h3.1

/-- **`obj_array_append`** loses the elements if there is no room, or nothing to append. -/
lemma objArrayAppend_iff (hs : Sound h sz s) (ha : StorageAt s arr st n)
    (hd : d = 0 ∨ d + 1 ∈ s.live) :
    ArrayAppends h sz s arr n d (objArrayAppend h s arr d) ↔
      d ≠ 0 ∧ CanAppend h sz s st n.length := by
  have hst := hs.bounds ha.elems.live
  by_cases hd0 : d = 0
  · refine iff_of_false (not_arrayAppends hs ?_ ha.ptr) fun h1 => h1.1 hd0
    rw [objectAppend, if_pos (.inr hd0)]
  have hd := hd.resolve_left hd0
  obtain ⟨hw, hn₁, hcan⟩ := counted (k := n.length) hs ha.elems hd
  have hcode : objectAppend h s st d = objectAppendWord h (incRefcount s d 1) st (8 * d) := by
    rw [objectAppend, if_neg (by omega)]
  rw [and_iff_right hd0, ← hcan]
  rcases append_obj (8 * d) hw.sound hn₁ with ⟨h1, h2⟩ | ⟨s', b, h1, h0, h2, h3⟩
  · exact iff_of_false (not_arrayAppends hw.sound (hcode.trans h1) ha.ptr) h2
  · refine iff_of_true ?_ h2
    have harr : arr + 1 ∈ (incRefcount s d 1).live := ha.live
    have hne : arr + 1 ≠ st + 1 := fun heq => ha.ne (Nat.succ_injective heq)
    have hne' : arr ≠ b := fun heq => h3.moved.ne harr hne (congrArg (· + 1) heq)
    have hkeep := h3.moved.ext _ harr 0 (by have := hw.memSz _ ha.live; have := ha.room; omega) hne
    have hroom' : 4 ≤ getMemSz s'.mem (arr + 1) := by
      rw [hkeep.memSz, hw.memSz _ ha.live]
      exact ha.room
    -- the pointer to the storage is written
    have hw' : Wrote h sz (fun c _ => c = arr + 1) s' (s'.setPtr (contents arr 0) b) := by
      have h4 := (Wrote.refl (W := fun c _ => c = arr + 1) h3.moved.sound).set (i := 3) (8 * b)
        hkeep.live (by omega) rfl
      exact h4
    refine ⟨s'.setPtr (contents arr 0) b, b, ?_, hw'.sound, .inl ⟨hw'.live ▸ hkeep.live, ?_,
      setPtr_self .., hne', ?_⟩⟩
    · rw [objArrayAppend, ptr_of_eq ha.ptr, hcode, h1]
      rfl
    · rw [hw'.memSz _ hkeep.live]
      exact hroom'
    · have hb : b + 1 ≠ arr + 1 := fun heq => hne' (Nat.succ_injective heq).symm
      exact h3.holds.ext hw'.ext hb fun _ _ => hb

/-! ### Making room in an object -/

/-- What an expansion of the object at `a` should do: make room for `newSz` words of contents and
keep those there are, or else leave the state. -/
def Expands (h sz : ℕ) (s : HSt) (a : ℕ) (n : List ℕ) (newSz : ℕ) (r : Option (HSt × ℕ)) : Prop :=
  r = some (s, 0) ∨ ∃ s' b, r = some (s', b) ∧ b ≠ 0 ∧ Moved h sz s s' (a + 1) (b + 1) ∧
    NumAt s' b n ∧ newSz + (objSz - 1) ≤ getMemSz s'.mem (b + 1)

/-- What `realloc` returns has been handed out by `alloc`. -/
lemma realloc_alloc {l : ℕ} (hr : s.realloc h a l = some (s', b)) :
    ∃ s₁, s.alloc h l = some (s₁, b) := by
  unfold HSt.realloc Alloc.realloc at hr
  obtain ⟨⟨m, c⟩, h1, h2⟩ := Option.map_eq_some_iff.mp hr
  obtain ⟨-, rfl⟩ := Prod.mk.inj h2
  obtain ⟨⟨m₁, c₁⟩, h3, h4⟩ := Option.bind_eq_some_iff.mp h1
  dsimp only at h4
  have hc : c₁ = c := by
    by_cases h0 : c₁ = 0
    · rw [if_pos h0] at h4
      exact h0.trans (Prod.mk.inj (Option.some.inj h4)).2
    · rw [if_neg h0] at h4
      obtain ⟨m₂, -, h5⟩ := Option.bind_eq_some_iff.mp h4
      obtain ⟨m₃, -, h6⟩ := Option.map_eq_some_iff.mp h5
      exact (Prod.mk.inj h6).2
  subst hc
  unfold HSt.alloc
  rw [h3]
  exact ⟨_, rfl⟩

/-- **`object_expand`** makes room if there is any, and for no fewer words than there are. -/
lemma objectExpand_iff {newSz : ℕ} (hs : Sound h sz s) (hn : NumAt s a n) (hnew : newSz < wordMod) :
    Expands h sz s a n newSz (objectExpand h s a newSz) ↔ n.length ≤ newSz ∧
      newSz + objSz + umdsSz < wordMod ∧ ¬ NoRoom h sz s (objSz + newSz) := by
  have hsp : addrSpace + 2 * objSz < wordMod := by decide
  constructor
  · rintro (hr | ⟨s', b, hr, h0, hm, hn', hroom⟩)
    · obtain ⟨⟨s₁, a'⟩, h1, h2⟩ := Option.bind_eq_some_iff.mp hr
      dsimp only at h2
      by_cases h3 : a' = 0
      · rw [if_pos h3] at h2
        exact absurd h2 (by simp)
      · rw [if_neg h3] at h2
        obtain ⟨s₂, h4⟩ := realloc_alloc h1
        have h5 := (Prod.mk.inj (Option.some.inj h2)).2
        obtain rfl : a' = 0 + 1 := by omega
        exact absurd rfl (alloc_ne_one hs (Nat.mod_lt _ (by decide)) h4)
    · have hb := hm.sound.bounds hm.mem
      unfold objSz at hroom hsp
      have hl : wadd objSz newSz = objSz + newSz := wadd_eq (by unfold objSz; omega)
      have hfit : newSz + objSz + umdsSz < wordMod := by unfold objSz umdsSz; omega
      rw [objectExpand, hl] at hr
      rcases realloc_moved (l := objSz + newSz) hs hn.live (by omega) with
        ⟨h1, -⟩ | ⟨s₁, b', h1, h2, h3, h4, h5, h6⟩
      · rw [h1, Option.bind_some] at hr
        exact absurd hr (by simp)
      · refine ⟨?_, hfit, h3⟩
        by_contra hlt
        rw [h1, Option.bind_some] at hr
        dsimp only at hr
        rw [if_neg h2, hn.size, if_pos (by omega)] at hr
        obtain ⟨rfl, rfl⟩ := Prod.mk.inj (Option.some.inj hr)
        have h7 : (s₁.set (size (b' - 1)) newSz).mem (size (b' - 1)) = newSz := set_self ..
        exact hlt (h7.symm.trans hn'.size).ge
  · rintro ⟨hle, hfit, hno⟩
    have hl : wadd objSz newSz = objSz + newSz := wadd_eq (by omega)
    rcases realloc_moved (l := objSz + newSz) hs hn.live (by omega) with
      ⟨-, h1⟩ | ⟨s₁, b', h1, h2, -, h4, h5, h6⟩
    · exact absurd h1 hno
    · have hb := h4.sound.bounds h4.mem
      obtain ⟨b, rfl⟩ : ∃ b, b' = b + 1 := ⟨b' - 1, by omega⟩
      unfold objSz at h5
      have hfits := hn.fits
      refine .inr ⟨s₁, b, ?_, by omega, h4, h4.num hn (by omega) fun i hi => ?_, ?_⟩
      · rw [objectExpand, hl, h1, Option.bind_some]
        dsimp only
        rw [if_neg h2, hn.size, if_neg (by omega)]
        rfl
      · exact h6 i (lt_min (by omega) (by unfold objSz; omega))
      · unfold objSz
        omega

/-! ### The five operations -/

/-- **Failed growth**: `object_append_word` and `array_append` append or change nothing; the other
three do so exactly if nothing fails once they have begun to write. -/
theorem growth_intact_iff (hs : Sound h sz s) :
    (∀ a n v, NumAt s a n → Appends h sz s s a n v (objectAppendWord h s a v)) ∧
    (∀ a n d, NumAt s a n → (d = 0 ∨ d + 1 ∈ s.live) →
      (Appends h sz s (incRefcount s d 1) a n (8 * d) (objectAppend h s a d) ↔
        d = 0 ∨ CanAppend h sz s a n.length)) ∧
    (∀ arr st n d, StorageAt s arr st n → (d = 0 ∨ d + 1 ∈ s.live) →
      (ArrayAppends h sz s arr n d (objArrayAppend h s arr d) ↔
        d ≠ 0 ∧ CanAppend h sz s st n.length)) ∧
    (∀ a n newSz, NumAt s a n → newSz < wordMod →
      (Expands h sz s a n newSz (objectExpand h s a newSz) ↔ n.length ≤ newSz ∧
        newSz + objSz + umdsSz < wordMod ∧ ¬ NoRoom h sz s (objSz + newSz))) ∧
    ∀ b k ws x, ArrayAt s b k ws → x + k ≤ addrSpace →
      arrayAppend h s (b + 2) x = some (s, 0) ∨
        ∃ s' b' w, arrayAppend h s (b + 2) x = some (s', b' + 2) ∧
          ArrAppended h sz s s' b b' x k ws w := by
  refine ⟨fun a n v hn => ?_, fun a n d hn hd => objectAppend_iff hs hn hd,
    fun arr st n d ha hd => objArrayAppend_iff hs ha hd,
    fun a n newSz hn hnew => objectExpand_iff hs hn hnew,
    fun b k ws x ha hx => ?_⟩
  · rcases append_obj v hs hn with ⟨h1, -⟩ | ⟨s', b, h1, h0, -, h2⟩
    · exact .inl h1
    · exact .inr ⟨s', b, h1, h0, h2⟩
  · rcases append_arr hs ha hx with ⟨h1, -⟩ | ⟨-, s', b', w, h1, h2, -⟩
    · exact .inl h1
    · exact .inr ⟨s', b', w, h1, h2⟩

/-- A heap with a type and an array that has an element. -/
lemma exists_array : ∃ s ty arr st, Sound 1 (2 ^ 17) s ∧ ty + 1 ∈ s.live ∧
    StorageAt s arr st [5] ∧ ∀ k ≤ 1000, ¬ NoRoom 1 (2 ^ 17) s k := by
  obtain ⟨s, ty, arr, st, hs, hty, -, hne, h1, h2, hno⟩ :=
    exists_numbers [0] [5] (by decide) (by decide)
  have hfits : 4 ≤ getMemSz s.mem (arr + 1) := h1.fits
  have hw : Wrote 1 (2 ^ 17) (fun c _ => c = arr + 1) s (s.setPtr (contents arr 0) st) :=
    (Wrote.refl (W := fun c _ => c = arr + 1) hs).set (i := 3) (8 * st) h1.live (by omega) rfl
  have hst : st + 1 ≠ arr + 1 := fun heq => hne (Nat.succ_injective heq).symm
  refine ⟨s.setPtr (contents arr 0) st, ty, arr, st, hw.sound, hw.live ▸ hty, ?_, fun k hk => ?_⟩
  · refine ⟨hw.live ▸ h1.live, ?_, setPtr_self .., hne, h2.ext hw.ext hst fun _ _ => hst⟩
    rwa [hw.memSz _ h1.live]
  · exact fun hf => hno k hk ((noRoom_set (i := 3) hs h1.live (by omega)).mp hf)

/-- An element is appended to an array of objects. -/
theorem growth_intact_array : ∃ s ty arr st, StorageAt s arr st [5] ∧
    ArrayAppends 1 (2 ^ 17) s arr [5] ty (objArrayAppend 1 s arr ty) := by
  obtain ⟨s, ty, arr, st, hs, hty, ha, hno⟩ := exists_array
  refine ⟨s, ty, arr, st, ha, ((growth_intact_iff hs).2.2.1 arr st [5] ty ha (.inr hty)).mpr
    ⟨?_, .inr (hno _ (by decide))⟩⟩
  have := hs.bounds hty
  rintro rfl
  omega

/-- The null pointer appended to an array of objects: its elements are lost. -/
theorem growth_not_intact : ¬ ∀ (h sz : ℕ) (s : HSt) (arr st : ℕ) (n : List ℕ) (d : ℕ),
    Sound h sz s → StorageAt s arr st n → (d = 0 ∨ d + 1 ∈ s.live) →
      ArrayAppends h sz s arr n d (objArrayAppend h s arr d) := by
  intro hall
  obtain ⟨s, ty, arr, st, hs, -, ha, -⟩ := exists_array
  exact ((objArrayAppend_iff hs ha (.inl rfl)).mp (hall _ _ s arr st [5] 0 hs ha (.inl rfl))).1 rfl

end LispMachine.Intact
