import LispMachine.Sizes

/-!
Containers that grow: objects to which words are appended, and arrays.

A container that is full moves to a larger block. When there is none, an append is refused, and
each of the operations has its own way of failing.
-/

namespace LispMachine.Growth

open LispMachine.Memory LispMachine.Alloc LispMachine.HeapInv LispMachine.Heap
open LispMachine.HeapRuns LispMachine.HeapFrame LispMachine.Object LispMachine.NumObj
open LispMachine.Containers LispMachine.Sizes LispMachine.AsmHeapInv
open LispMachine.AsmHeap (arrayBsz memAddr usedSz itemSz arrayLen)

variable {h sz : ℕ} {s s' s'' : HSt} {a b c d k l v x : ℕ} {n ws vs : List ℕ}

/-! ### A block that moves -/

/-- The block at `a` has become the one at `b`; the others, and what is not the heap's, are as
they were. -/
structure Moved (h sz : ℕ) (s s' : HSt) (a b : ℕ) : Prop where
  sound : Sound h sz s'
  live : s'.live.Perm (b :: s.live.erase a)
  ext : Ext (fun c _ => c = a) s s'
  outside : ∀ x, x < h ∨ h + sz ≤ x → s'.mem x = s.mem x

namespace Moved

lemma mem (hm : Moved h sz s s' a b) : b ∈ s'.live := hm.live.symm.subset List.mem_cons_self

/-- Another block is not where the moved one is. -/
lemma ne (hm : Moved h sz s s' a b) (hc : c ∈ s.live) (hne : c ≠ a) : c ≠ b := by
  have h1 := hm.live.nodup_iff.mp hm.sound.nodup
  rintro rfl
  exact (List.nodup_cons.mp h1).1 ((List.mem_erase_of_ne hne).mpr hc)

/-- Writes to the block after it has moved. -/
lemma wrote {W : ℕ → ℕ → Prop} (hm : Moved h sz s s' a b) (hw : Wrote h sz W s' s'')
    (hW : ∀ c i, W c i → c = b) (hout : ∀ x, x < h ∨ h + sz ≤ x → s''.mem x = s'.mem x) :
    Moved h sz s s'' a b := by
  refine ⟨hw.sound, hw.live ▸ hm.live, fun c hc i hi hne => ?_, fun x hx =>
    (hout x hx).trans (hm.outside x hx)⟩
  refine (hm.ext.trans hw.ext) c hc i hi ?_
  rintro (hf | hf)
  · exact hne hf
  · exact hm.ne hc hne (hW c i hf)

lemma refl (hs : Sound h sz s) (ha : a ∈ s.live) : Moved h sz s s a a :=
  ⟨hs, List.perm_cons_erase ha, .refl s, fun _ _ => rfl⟩

/-- An object is where its block is. -/
lemma num (hm : Moved h sz s s' (a + 1) (b + 1)) (hn : NumAt s a n)
    (hroom : n.length + 3 ≤ getMemSz s'.mem (b + 1))
    (hcopy : ∀ i < n.length + 3, s'.mem (b + 1 + i) = s.mem (a + 1 + i)) : NumAt s' b n := by
  refine ⟨hm.mem, (hcopy 2 (by omega)).trans hn.size, hroom, ?_⟩
  refine (readAll_moved fun i hi => ?_).trans hn.words
  have := hcopy (i + 3) (by omega)
  rwa [← contents_eq, ← contents_eq] at this

end Moved

/-- **`realloc`** moves the block, or there is no room for it. -/
lemma realloc_moved (hs : Sound h sz s) (ha : a ∈ s.live) (hl : l + umdsSz < wordMod) :
    (s.realloc h a l = some (s, 0) ∧ NoRoom h sz s l) ∨
    ∃ s' b, s.realloc h a l = some (s', b) ∧ b ≠ 0 ∧ ¬ NoRoom h sz s l ∧ Moved h sz s s' a b ∧
      l ≤ getMemSz s'.mem b ∧
      ∀ i < min (getMemSz s.mem a) l, s'.mem (b + i) = s.mem (a + i) := by
  obtain ⟨lost, t, U, hi⟩ := id hs
  obtain ⟨s', b, h1, h2⟩ := realloc_meets hi ha hl
  by_cases hb : b = 0
  · subst hb
    obtain rfl := h2.unchanged rfl
    exact .inl ⟨h1, lost, t, U, hi, h2.null.mp rfl⟩
  · obtain ⟨h3, h4, h5, h6⟩ := realloc_ext hs ha hl h1 hb
    refine .inr ⟨s', b, h1, hb, fun hno => hb ?_, ⟨h3, h5 ▸ .refl _, h4, fun x hx => ?_⟩, h6,
      h2.copied hb⟩
    · obtain ⟨lost', t', U', hi', hfull⟩ := hno
      obtain ⟨s₁, b₁, h7, h8⟩ := realloc_meets hi' ha hl
      obtain ⟨-, rfl⟩ := Prod.mk.inj (Option.some.inj (h1.symm.trans h7))
      exact h8.null.mpr hfull
    · rcases hi.realloc ha hl with
        ⟨h7, -⟩ | ⟨s₁, t', V, p, q, r, w, j, h7, -, rfl, hp, -, -, -, -, -, -, -, hloc, -⟩
      · exact absurd (Prod.mk.inj (Option.some.inj (h7.symm.trans h1))).2.symm hb
      · obtain ⟨rfl, -⟩ := Prod.mk.inj (Option.some.inj (h7.symm.trans h1))
        have hsize := hi.blocks.size
        unfold minAllocSz hdsSz at hsize
        refine hloc x ?_ fun e he hin => ?_
        · simp only [headerCells, fmdsPtr, trueNumAlloced, wordsUsed, List.mem_cons,
            List.not_mem_nil, or_false]
          omega
        · have he' : e ∈ t.toList ++ U := by
            rcases List.mem_cons.mp he with rfl | he
            · exact List.mem_append_right _ hp
            · exact List.mem_append_left _ he
          have := hi.blocks.part.bounds he'
          unfold hdsSz at this
          unfold Lib.Segments.In at hin
          omega

/-- Once the block at `a` is at `b`, only words of it have been written. -/
def OwnWrites (h : ℕ) (s s' : HSt) (a b : ℕ) : Prop :=
  ∃ s₁, (s₁ = s ∧ b = a ∨ ∃ l, s.realloc h a l = some (s₁, b)) ∧
    ∀ x, x < b ∨ b + getMemSz s₁.mem b ≤ x → s'.mem x = s₁.mem x

/-! ### Words appended to an object -/

/-- The object at `a` is at `b` now, with the contents `ws`, and its other fields are the same. -/
structure ObjAppended (h sz : ℕ) (s s' : HSt) (a b : ℕ) (ws : List ℕ) : Prop where
  moved : Moved h sz s s' (a + 1) (b + 1)
  holds : NumAt s' b ws
  own : OwnWrites h s s' (a + 1) (b + 1)
  refcount : s'.mem (refcount b) = s.mem (refcount a)
  type : s'.mem (type b) = s.mem (type a)

/-- There is a word left for an append, or a free block to which the object can move. -/
def CanAppend (h sz : ℕ) (s : HSt) (a k : ℕ) : Prop :=
  k + 4 ≤ getMemSz s.mem (a + 1) ∨ ¬ NoRoom h sz s (grown k)

/-- The same for the object as it is in memory. -/
def ObjFits (h sz : ℕ) (s : HSt) (a : ℕ) : Prop := CanAppend h sz s a (s.mem (size a))

lemma append_eq (hs : Sound h sz s) (hn : NumAt s a n)
    (hroom : n.length + 4 ≤ getMemSz s.mem (a + 1)) :
    objectAppendWord h s a v =
      some ((s.set (contents a n.length) v).set (size a) (n.length + 1), a) := by
  have hlow := hs.bounds hn.live
  have hsp : addrSpace < wordMod := by decide
  have hsize : s.mem (size a) = n.length := hn.size
  have hcell : (s.set (contents a n.length) v).mem (size a) = n.length := by
    rw [mem_set, if_neg (by unfold contents size; omega), hsize]
  rw [objectAppendWord, if_neg (by omega)]
  dsimp only
  rw [if_neg ((append_full_iff hs hn).not.mpr (not_not.mpr hroom)), Option.map_some]
  dsimp only
  rw [if_neg (by omega), hsize, hcell, wadd_eq (by omega)]

/-- A word is written behind the others. -/
lemma append_here (hs : Sound h sz s) (hn : NumAt s a n)
    (hroom : n.length + 4 ≤ getMemSz s.mem (a + 1)) :
    ∃ s', objectAppendWord h s a v = some (s', a) ∧ Wrote h sz (Payload a) s s' ∧
      NumAt s' a (n ++ [v]) ∧
      ∀ x, x < a + 1 ∨ a + 1 + getMemSz s.mem (a + 1) ≤ x → s'.mem x = s.mem x := by
  obtain ⟨s', h1, h2, h3⟩ := append_spec (v := v) hs hn hroom
  refine ⟨s', h1, h2, h3, fun x hx => ?_⟩
  rw [append_eq hs hn hroom] at h1
  obtain ⟨rfl, -⟩ := Prod.mk.inj (Option.some.inj h1)
  rw [mem_set, if_neg (by unfold size; omega), mem_set, if_neg (by unfold contents; omega)]

/-- **`object_append_word`** appends the word, or it is refused and nothing has changed. -/
lemma append_obj (v : ℕ) (hs : Sound h sz s) (hn : NumAt s a n) :
    (objectAppendWord h s a v = some (s, 0) ∧ ¬ CanAppend h sz s a n.length) ∨
    ∃ s' b, objectAppendWord h s a v = some (s', b) ∧ b ≠ 0 ∧ CanAppend h sz s a n.length ∧
      ObjAppended h sz s s' a b (n ++ [v]) := by
  have hbounds := hs.bounds hn.live
  have hfits := hn.fits
  have hsp : 4 * addrSpace < wordMod := by decide
  by_cases hroom : n.length + 4 ≤ getMemSz s.mem (a + 1)
  · obtain ⟨s', h1, h2, h3, h4⟩ := append_here (v := v) hs hn hroom
    have hkeep : ∀ i < 2, s'.mem (a + 1 + i) = s.mem (a + 1 + i) := fun i hi =>
      (h2.ext _ hn.live i (by omega) (by unfold Payload; omega)).word
    refine .inr ⟨s', a, h1, by omega, .inl hroom, ⟨?_, h3, ⟨s, .inl ⟨rfl, rfl⟩, h4⟩,
      hkeep 0 (by omega), hkeep 1 (by omega)⟩⟩
    exact (Moved.refl hs hn.live).wrote h2 (fun c i hp => hp.1) fun x hx => h4 x (by omega)
  · have hreq : wadd (wadd (wadd objSz n.length) (n.length / 2)) 1 = grown n.length := by
      unfold objSz grown
      rw [wadd_eq (x := 4) (by omega), wadd_eq (x := 4 + n.length) (by omega), wadd_eq (by omega)]
      omega
    have hfull := (append_full_iff hs hn).mpr hroom
    rcases realloc_moved (l := grown n.length) hs hn.live (by unfold grown umdsSz; omega) with
      ⟨h1, h2⟩ | ⟨s₁, b', h1, h2, h3, h4, h5, h6⟩
    · refine .inl ⟨?_, fun hc => hc.elim hroom fun hno => hno h2⟩
      rw [objectAppendWord, if_neg (by omega)]
      dsimp only
      rw [if_pos hfull, hn.size, hreq, h1]
      rfl
    · obtain ⟨b, rfl⟩ : ∃ b, b' = b + 1 := ⟨b' - 1, by omega⟩
      unfold grown at h5 h6
      have hcopy : ∀ i < n.length + 3, s₁.mem (b + 1 + i) = s.mem (a + 1 + i) := fun i hi =>
        h6 i (lt_min (hi.trans_le hfits) (by omega))
      have hn₁ : NumAt s₁ b n := h4.num hn (by omega) hcopy
      have hb := h4.sound.bounds h4.mem
      obtain ⟨s', g1, g2, g3, g4⟩ := append_here (v := v) h4.sound hn₁ (by omega)
      have hkeep : ∀ i < 2, s'.mem (b + 1 + i) = s.mem (a + 1 + i) := fun i hi =>
        ((g2.ext _ hn₁.live i (by omega) (by unfold Payload; omega)).word).trans
          (hcopy i (by omega))
      refine .inr ⟨s', b, ?_, by omega, .inr h3, ⟨?_, g3, ⟨s₁, .inr ⟨_, h1⟩, g4⟩,
        hkeep 0 (by omega), hkeep 1 (by omega)⟩⟩
      · have hroom₁ : ¬ wsub (s₁.mem b) objSz ≤ s₁.mem (size b) := by
          rw [append_full_iff h4.sound hn₁]
          omega
        rw [← g1, objectAppendWord, objectAppendWord, if_neg (by omega), if_neg (by omega)]
        dsimp only
        rw [if_pos hfull, if_neg hroom₁, hn.size, hreq, h1, Option.map_some]
        rfl
      · exact h4.wrote g2 (fun c i hp => hp.1) fun x hx => g4 x (by omega)

/-! ### Items appended to an array -/

/-- The words of the item are a user's, but not the ones of the block at `b`. -/
def Elsewhere (h sz : ℕ) (s : HSt) (b x k : ℕ) : Prop :=
  ∀ i < k, (x + i < h ∨ h + sz ≤ x + i) ∨
    ∃ c ∈ s.live, c ≠ b ∧ ∃ j < getMemSz s.mem c, x + i = c + j

/-- The item is where it was when the block has moved, and outside of the block. -/
lemma Moved.item {i : ℕ} (hm : Moved h sz s s' a b) (hx : Elsewhere h sz s a x k) (hi : i < k) :
    s'.mem (x + i) = s.mem (x + i) ∧ ∀ j < getMemSz s'.mem b, x + i ≠ b + j := by
  have hb := hm.sound.bounds hm.mem
  rcases hx i hi with hout | ⟨c, hc, hne, j, hj, heq⟩
  · exact ⟨hm.outside _ hout, fun j hj => by omega⟩
  · have h1 := hm.ext c hc j hj hne
    refine ⟨heq ▸ h1.word, fun j' hj' heq' => hm.ne hc hne ?_⟩
    exact (hm.sound.word_inj h1.live hm.mem (h1.memSz.symm ▸ hj) hj' (heq.symm.trans heq')).1

/-- What is copied: the item, if it is not where it is copied to. -/
lemma copyItem_putAll (s : HSt) (c x k : ℕ) : ∃ w, w.length = k ∧
    copyItem c x k s = putAll s c w ∧
    ((∀ i < k, ∀ j < k, x + i ≠ c + j) → w = readAll s.mem x k) := by
  induction k with
  | zero => exact ⟨[], rfl, rfl, fun _ => rfl⟩
  | succ k ih =>
    obtain ⟨w, h1, h2, h3⟩ := ih
    refine ⟨w ++ [(putAll s c w).mem (x + k)], by simp [h1], ?_, fun hd => ?_⟩
    · rw [copyItem, h2, putAll_append, h1]
      rfl
    · have hw := h3 fun i hi j hj => hd i (by omega) j (by omega)
      have hlast : (putAll s c w).mem (x + k) = s.mem (x + k) := by
        rw [putAll_apply, if_neg]
        rintro ⟨h4, h5⟩
        exact hd k (by omega) (x + k - c) (by omega) (by omega)
      rw [hlast, readAll_add, ← hw]
      rfl

/-- An item is copied behind the others. -/
lemma copy_here (hs : Sound h sz s) (ha : ArrayAt s b k ws)
    (hroom : ws.length + k + 2 ≤ getMemSz s.mem b) :
    ∃ s' w, (copyItem (b + 2 + ws.length) x k s).set b
        (wadd ((copyItem (b + 2 + ws.length) x k s).mem b) k) = s' ∧ w.length = k ∧
      (Elsewhere h sz s b x k → w = readAll s.mem x k) ∧
      Wrote h sz (fun c _ => c = b) s s' ∧ ArrayAt s' b k (ws ++ w) ∧
      ∀ y, y < b ∨ b + getMemSz s.mem b ≤ y → s'.mem y = s.mem y := by
  have hb := hs.bounds ha.live
  have hsp : addrSpace < wordMod := by decide
  obtain ⟨w, hw, hcopy, hitem⟩ := copyItem_putAll s (b + 2 + ws.length) x k
  have hfits : ws.length + w.length + 2 ≤ getMemSz s.mem b := by omega
  obtain ⟨h1, h2⟩ := ha.write hs hfits
  refine ⟨_, w, rfl, hw, fun hx => hitem fun i hi j hj heq => ?_, ?_⟩
  · have h3 := ((Moved.refl hs ha.live).item hx hi).2 (2 + ws.length + j) (by omega)
    omega
  · have hused : wadd ((putAll s (b + 2 + ws.length) w).mem b) k = ws.length + w.length := by
      rw [putAll_apply, if_neg (by omega), ha.used, hw, wadd_eq (by omega)]
    rw [hcopy, hused]
    refine ⟨h1, h2, fun y hy => ?_⟩
    rw [mem_set, if_neg (by omega), putAll_apply, if_neg (by omega)]

/-- The array at `b` is at `b'` now, with `w` behind its items; `w` is the item, unless that is a
part of the array. -/
structure ArrAppended (h sz : ℕ) (s s' : HSt) (b b' x k : ℕ) (ws w : List ℕ) : Prop where
  moved : Moved h sz s s' b b'
  holds : ArrayAt s' b' k (ws ++ w)
  length : w.length = k
  item : Elsewhere h sz s b x k → w = readAll s.mem x k
  own : OwnWrites h s s' b b'

/-- The words to which a block of `l` words grows for an item of `k` words. -/
def arrGrown (l k : ℕ) : ℕ := l + (l - 2) / 2 + k

/-- There are words left for an item, or a free block to which the array can move. -/
def CanGrow (h sz : ℕ) (s : HSt) (arr : ℕ) : Prop :=
  s.mem (usedSz arr) + s.mem (itemSz arr) + arrayBsz ≤ getMemSz s.mem (memAddr arr) ∨
    ¬ NoRoom h sz s (arrGrown (getMemSz s.mem (memAddr arr)) (s.mem (itemSz arr)))

/-- **`array_append`** appends an item, or it is refused and nothing has changed. -/
lemma append_arr {b : ℕ} (hs : Sound h sz s) (ha : ArrayAt s b k ws) (hx : x + k ≤ addrSpace) :
    (arrayAppend h s (b + 2) x = some (s, 0) ∧ ¬ CanGrow h sz s (b + 2)) ∨
    CanGrow h sz s (b + 2) ∧ ∃ s' b' w, arrayAppend h s (b + 2) x = some (s', b' + 2) ∧
      ArrAppended h sz s s' b b' x k ws w ∧
      ∀ y, Room h sz s (y + need (arrGrown (getMemSz s.mem b) k) + minAllocSz) →
        Room h sz s' y := by
  have hcan : CanGrow h sz s (b + 2) ↔ ws.length + k + 2 ≤ getMemSz s.mem b ∨
      ¬ NoRoom h sz s (arrGrown (getMemSz s.mem b) k) := by
    rw [CanGrow, memAddr_add, usedSz_add, itemSz_add, ha.used, ha.item]
    rfl
  rw [hcan]
  have hb := hs.bounds ha.live
  have hfits := ha.fits
  have hsp : 4 * addrSpace < wordMod := by decide
  have hmax : wsub (getMemSz s.mem b) arrayBsz = getMemSz s.mem b - 2 :=
    wsub_eq (by unfold arrayBsz; omega) (by omega)
  rw [arrayAppend]
  simp only [memAddr_add, usedSz_add, itemSz_add, ha.used, ha.item]
  rw [hmax, wadd_eq (x := ws.length) (by omega)]
  by_cases hfull : getMemSz s.mem b - 2 < ws.length + k
  · rw [if_pos hfull, wadd_eq (y := (getMemSz s.mem b - 2) / 2) (by omega), wadd_eq (by omega)]
    have hfit : getMemSz s.mem b + (getMemSz s.mem b - 2) / 2 + k + umdsSz < wordMod := by
      unfold umdsSz
      omega
    rcases realloc_moved hs ha.live hfit with ⟨h1, h2⟩ | ⟨s₁, b', h1, h0, hno, h2, h3, h4⟩
    · refine .inl ⟨by rw [h1]; rfl, ?_⟩
      rintro (hc | hc)
      · omega
      · exact hc h2
    · refine .inr ⟨.inr hno, ?_⟩
      have ha₁ : ArrayAt s₁ b' k ws := ha.moved h2.mem (by omega) fun i hi =>
        h4 i (lt_min (hi.trans_le hfits) (by omega))
      obtain ⟨s', w, g1, g2, g3, g4, g5, g6⟩ := copy_here (x := x) h2.sound ha₁ (by omega)
      have hb' := h2.sound.bounds h2.mem
      refine ⟨s', b', w, ?_, ⟨h2.wrote g4 (fun _ _ hc => hc) fun y hy => g6 y (by omega), g5, g2,
        fun hx => ?_, s₁, .inr ⟨_, h1⟩, g6⟩,
        fun y hr => g4.room y (realloc_room ha.live hfit h1 hr).2⟩
      · rw [h1, Option.map_some, Option.map_some]
        dsimp only
        rw [if_neg h0, if_neg (by unfold arrayBsz; omega)]
        exact congrArg some (Prod.ext g1 rfl)
      · refine (g3 fun i hi => ?_).trans (readAll_congr fun i hi => (h2.item hx hi).1)
        rcases hx i hi with hout | ⟨c, hc, hne, j, hj, heq⟩
        · exact .inl hout
        · have h5 := h2.ext c hc j hj hne
          exact .inr ⟨c, h5.live, h2.ne hc hne, j, h5.memSz.symm ▸ hj, heq⟩
  · refine .inr ⟨.inl (by omega), ?_⟩
    rw [if_neg hfull]
    obtain ⟨s', w, g1, g2, g3, g4, g5, g6⟩ := copy_here (x := x) hs ha (by omega)
    refine ⟨s', b, w, ?_, ⟨(Moved.refl hs ha.live).wrote g4 (fun _ _ hc => hc)
      fun y hy => g6 y (by omega), g5, g2, g3, s, .inl ⟨rfl, rfl⟩, g6⟩,
      fun y hr => g4.room y (hr.mono (by omega))⟩
    rw [Option.map_some]
    dsimp only
    rw [if_neg (by omega)]
    exact congrArg some (Prod.ext g1 rfl)

/-! ### Runs of appends -/

/-- One append after the other, until one is refused. -/
def appendAll (op : HSt → ℕ → ℕ → Option (HSt × ℕ)) : HSt → ℕ → List ℕ → Option (HSt × ℕ)
  | s, c, [] => some (s, c)
  | s, c, x :: xs => (op s c x).bind fun (s, c) =>
    if c = 0 then some (s, 0) else appendAll op s c xs

/-- No append of the run writes a word outside of the container's own block. -/
def RunOwn (h : ℕ) (op : HSt → ℕ → ℕ → Option (HSt × ℕ)) (block : ℕ → ℕ) :
    HSt → ℕ → List ℕ → Prop
  | _, _, [] => True
  | s, c, x :: xs => ∀ s' c', op s c x = some (s', c') → c' ≠ 0 →
    OwnWrites h s s' (block c) (block c') ∧ RunOwn h op block s' c' xs

/-- The allocations of the run succeed: each append finds the words that it needs. -/
def RunFits (op : HSt → ℕ → ℕ → Option (HSt × ℕ)) (can : HSt → ℕ → Prop) :
    HSt → ℕ → List ℕ → Prop
  | _, _, [] => True
  | s, c, x :: xs => can s c ∧ ∀ s' c', op s c x = some (s', c') → RunFits op can s' c' xs

/-- An item elsewhere is elsewhere after the block has moved. -/
lemma Moved.elsewhere (hm : Moved h sz s s' a b) (hx : Elsewhere h sz s a x k) :
    Elsewhere h sz s' b x k := by
  intro i hi
  rcases hx i hi with hout | ⟨c, hc, hne, j, hj, heq⟩
  · exact .inl hout
  · have h1 := hm.ext c hc j hj hne
    exact .inr ⟨c, h1.live, hm.ne hc hne, j, h1.memSz.symm ▸ hj, heq⟩

/-- **Words appended** to an object. -/
lemma append_words (vs : List ℕ) (hs : Sound h sz s) (hn : NumAt s a n) :
    RunOwn h (objectAppendWord h) (· + 1) s a vs ∧
    ∃ s' o, appendAll (objectAppendWord h) s a vs = some (s', o) ∧
      (o ≠ 0 ↔ RunFits (objectAppendWord h) (ObjFits h sz) s a vs) ∧
      (o ≠ 0 → Sound h sz s' ∧ NumAt s' o (n ++ vs)) := by
  induction vs generalizing s a n with
  | nil =>
    have ha : a ≠ 0 := by
      have := hs.bounds hn.live
      omega
    exact ⟨trivial, s, a, rfl, iff_of_true ha trivial, fun _ => ⟨hs, by rwa [List.append_nil]⟩⟩
  | cons v vs ih =>
    have hcan' : ObjFits h sz s a ↔ CanAppend h sz s a n.length := by rw [ObjFits, hn.size]
    rcases append_obj v hs hn with ⟨h1, hno⟩ | ⟨s₁, b, h1, h0, hcan, h2⟩
    · refine ⟨fun s' c' hr h0 => ?_, s, 0, ?_, iff_of_false (fun h0 => h0 rfl) fun hf => ?_,
        fun h0 => absurd rfl h0⟩
      · exact absurd (Prod.mk.inj (Option.some.inj (h1.symm.trans hr))).2.symm h0
      · rw [appendAll, h1, Option.bind_some]
        exact if_pos rfl
      · exact hno (hcan'.mp hf.1)
    · obtain ⟨hown, s', o, h3, hfits, h4⟩ := ih h2.moved.sound h2.holds
      refine ⟨fun s'' c' hr _ => ?_, s', o, ?_, hfits.trans ⟨fun hf => ⟨hcan'.mpr hcan, ?_⟩,
        fun hf => hf.2 _ _ h1⟩, fun ho => ?_⟩
      · obtain ⟨rfl, rfl⟩ := Prod.mk.inj (Option.some.inj (h1.symm.trans hr))
        exact ⟨h2.own, hown⟩
      · rw [appendAll, h1, Option.bind_some]
        exact (if_neg h0).trans h3
      · intro s'' c' hr
        obtain ⟨rfl, rfl⟩ := Prod.mk.inj (Option.some.inj (h1.symm.trans hr))
        exact hf
      · have h5 := h4 ho
        rwa [List.append_assoc] at h5

/-- The words of the items. -/
def itemWords (m : Mem) (k : ℕ) (xs : List ℕ) : List ℕ := xs.flatMap fun x => readAll m x k

lemma length_itemWords (m : Mem) (xs : List ℕ) : (itemWords m k xs).length = k * xs.length := by
  induction xs with
  | nil => rfl
  | cons x xs ih =>
    rw [itemWords, List.flatMap_cons, List.length_append, ← itemWords, ih, length_readAll,
      List.length_cons, Nat.mul_succ, Nat.add_comm]

/-- **Items appended** to an array. -/
lemma append_items {xs : List ℕ} (hs : Sound h sz s) (ha : ArrayAt s b k ws)
    (hx : ∀ x ∈ xs, x + k ≤ addrSpace ∧ Elsewhere h sz s b x k) :
    RunOwn h (arrayAppend h) memAddr s (b + 2) xs ∧
    ∃ s' arr, appendAll (arrayAppend h) s (b + 2) xs = some (s', arr) ∧
      (arr ≠ 0 ↔ RunFits (arrayAppend h) (CanGrow h sz) s (b + 2) xs) ∧
      (arr ≠ 0 → ∃ b', arr = b' + 2 ∧ Sound h sz s' ∧
        ArrayAt s' b' k (ws ++ itemWords s.mem k xs)) := by
  induction xs generalizing s b ws with
  | nil =>
    refine ⟨trivial, s, b + 2, rfl, iff_of_true (by omega) trivial, fun _ => ⟨b, rfl, hs, ?_⟩⟩
    rwa [itemWords, List.flatMap_nil, List.append_nil]
  | cons x xs ih =>
    obtain ⟨hx₀, hxs⟩ := List.forall_mem_cons.mp hx
    rcases append_arr hs ha hx₀.1 with ⟨h1, hno⟩ | ⟨hcan, s₁, b₁, w, h1, h2, -⟩
    · refine ⟨fun s' c' hr h0 => ?_, s, 0, ?_, iff_of_false (fun h0 => h0 rfl) fun hf => hno hf.1,
        fun h0 => absurd rfl h0⟩
      · exact absurd (Prod.mk.inj (Option.some.inj (h1.symm.trans hr))).2.symm h0
      · rw [appendAll, h1, Option.bind_some]
        exact if_pos rfl
    · obtain rfl := h2.item hx₀.2
      obtain ⟨hown, s', arr, h3, hfits, h4⟩ := ih h2.moved.sound h2.holds fun y hy =>
        ⟨(hxs y hy).1, h2.moved.elsewhere (hxs y hy).2⟩
      -- the items that follow are as they were
      have hsame : itemWords s₁.mem k xs = itemWords s.mem k xs :=
        List.flatMap_congr fun y hy => readAll_congr fun i hi =>
          (h2.moved.item (hxs y hy).2 hi).1
      refine ⟨fun s'' c' hr _ => ?_, s', arr, ?_, hfits.trans ⟨fun hf => ⟨hcan, ?_⟩,
        fun hf => hf.2 _ _ h1⟩, fun ho => ?_⟩
      · obtain ⟨rfl, rfl⟩ := Prod.mk.inj (Option.some.inj (h1.symm.trans hr))
        exact ⟨h2.own, hown⟩
      · rw [appendAll, h1, Option.bind_some]
        exact (if_neg (by omega)).trans h3
      · intro s'' c' hr
        obtain ⟨rfl, rfl⟩ := Prod.mk.inj (Option.some.inj (h1.symm.trans hr))
        exact hf
      · obtain ⟨b', h5, h6, h7⟩ := h4 ho
        refine ⟨b', h5, h6, ?_⟩
        rwa [hsame, List.append_assoc] at h7

/-- A new object without contents, whatever its size. -/
lemma object_empty {ty size o : ℕ} (hs : Sound h sz s) (hty : ty + 1 ∈ s.live)
    (hsize : size < wordMod) (hr : object h s ty size 0 0 = some (s', o)) (h0 : o ≠ 0) :
    Sound h sz s' ∧ NumAt s' o [] := by
  have hnew : ∀ k, k + 4 < wordMod → object h s ty k 0 0 = some (s', o) →
      Sound h sz s' ∧ NumAt s' o [] := by
    intro k hk hr
    rcases object_spec ty k 0 0 hs hty hk (Nat.zero_le _) (.inl rfl) with
      ⟨-, h1⟩ | ⟨s₁, o₁, -, h1, h2, -⟩
    · exact absurd (Prod.mk.inj (Option.some.inj (h1.symm.trans hr))).2.symm h0
    · obtain ⟨rfl, rfl⟩ := Prod.mk.inj (Option.some.inj (h1.symm.trans hr))
      have hroom := h2.room
      exact ⟨h2.sound, h2.mem, h2.size, by rw [List.length_nil]; omega, rfl⟩
  by_cases hfit : size + 4 < wordMod
  · exact hnew size hfit hr
  · -- the size wraps, and the object is one for no words
    refine hnew 0 (by decide) ?_
    have hasked : asked (wsub (wadd size objSz) 1) = asked (wsub (wadd 0 objSz) 1) := by
      obtain ⟨j, hj, rfl⟩ : ∃ j < 4, size = wordMod - 4 + j :=
        ⟨size - (wordMod - 4), by omega, by omega⟩
      interval_cases j <;> decide
    have hsame : object h s ty size 0 0 = object h s ty 0 0 0 := by
      unfold object
      rw [if_neg (Nat.not_lt_zero _), if_neg (Nat.not_lt_zero _), alloc_congr hasked]
    exact hsame.symm.trans hr

/-- A new object is found exactly if there is a free block for it. -/
lemma object_found {ty : ℕ} (size : ℕ) (hs : Sound h sz s) (hty : ty + 1 ∈ s.live) :
    ∃ s' o, object h s ty size 0 0 = some (s', o) ∧
      (o ≠ 0 ↔ Room h sz s (asked (wsub (wadd size objSz) 1))) := by
  have hn : wsub (wadd size objSz) 1 < wordMod := Nat.mod_lt _ (by decide)
  have hty0 : ty ≠ 0 := by
    have := hs.bounds hty
    omega
  rw [object, if_neg (Nat.not_lt_zero _)]
  rcases alloc_asked hs hn with ⟨h1, h2⟩ | ⟨s₁, a, h1, h0, h2, -⟩
  · exact ⟨s, 0, by rw [h1]; rfl, iff_of_false (fun h0 => h0 rfl) h2⟩
  · obtain ⟨o, rfl⟩ : ∃ o, a = o + 1 := ⟨a - 1, by omega⟩
    have ho := alloc_ne_one hs hn h1
    rw [h1, Option.map_some]
    exact ⟨_, _, rfl, iff_of_true (by simpa using ho) h2⟩

/-- **Containers grow**: a new one is empty, whatever its size, and refused only where there is no
block for it; after a run of appends it reads back as what it had with the appended items behind,
unless an append finds neither a spare word nor a block to move to; and no append writes outside
of its block. -/
theorem growable (hs : Sound h sz s) :
    (∀ ty size, ty + 1 ∈ s.live → size < wordMod → ∃ s' o,
      object h s ty size 0 0 = some (s', o) ∧
        (o ≠ 0 ↔ Room h sz s (asked (wsub (wadd size objSz) 1))) ∧
        (o ≠ 0 → Sound h sz s' ∧ NumAt s' o [])) ∧
    (∀ a n vs, NumAt s a n → RunOwn h (objectAppendWord h) (· + 1) s a vs ∧
      ∃ s' o, appendAll (objectAppendWord h) s a vs = some (s', o) ∧
        (o ≠ 0 ↔ RunFits (objectAppendWord h) (ObjFits h sz) s a vs) ∧
        (o ≠ 0 → s'.mem (size o) = n.length + vs.length ∧
          readAll s'.mem (contents o 0) (n.length + vs.length) = n ++ vs)) ∧
    (∀ size k, ∃ s' arr, array h s size k = some (s', arr) ∧
      (arr ≠ 0 ↔ Room h sz s (asked (wadd (wmul size k) arrayBsz))) ∧
      (arr ≠ 0 → Sound h sz s' ∧ ∃ b, arr = b + 2 ∧ ArrayAt s' b k [])) ∧
    ∀ b k ws m xs, 1 ≤ k → ArrayAt s b k ws → ws.length = k * m →
      (∀ x ∈ xs, x + k ≤ addrSpace ∧ Elsewhere h sz s b x k) →
      RunOwn h (arrayAppend h) memAddr s (b + 2) xs ∧
      ∃ s' arr, appendAll (arrayAppend h) s (b + 2) xs = some (s', arr) ∧
        (arr ≠ 0 ↔ RunFits (arrayAppend h) (CanGrow h sz) s (b + 2) xs) ∧
        (arr ≠ 0 → arrayLen s'.mem arr = m + xs.length ∧
          readAll s'.mem arr (k * (m + xs.length)) = ws ++ itemWords s.mem k xs) := by
  refine ⟨fun ty size hty hsize => ?_, fun a n vs hn => ?_, fun size k => ?_,
    fun b k ws m xs hk ha hm hx => ?_⟩
  · obtain ⟨s', o, h1, h2⟩ := object_found size hs hty
    exact ⟨s', o, h1, h2, fun h0 => object_empty hs hty hsize h1 h0⟩
  · obtain ⟨hown, s', o, h1, hfits, h2⟩ := append_words vs hs hn
    refine ⟨hown, s', o, h1, hfits, fun ho => ?_⟩
    obtain ⟨-, h3⟩ := h2 ho
    rw [← List.length_append]
    exact ⟨h3.size, h3.words⟩
  · rcases Sizes.array_spec size k hs with
      ⟨h1, h2⟩ | ⟨s₁, s₂, b, h1, -, -, h2, -, -, h3, -, h4⟩
    · exact ⟨s, 0, h1, iff_of_false (fun h0 => h0 rfl) h2, fun h0 => absurd rfl h0⟩
    · exact ⟨s₂, b + 2, h1, iff_of_true (by omega) h2, fun _ => ⟨h3, b, rfl, h4⟩⟩
  · obtain ⟨hown, s', arr, h1, hfits, h2⟩ := append_items hs ha hx
    refine ⟨hown, s', arr, h1, hfits, fun ho => ?_⟩
    obtain ⟨b', rfl, -, h3⟩ := h2 ho
    have hlen : (ws ++ itemWords s.mem k xs).length = k * (m + xs.length) := by
      rw [List.length_append, length_itemWords, hm, Nat.mul_add]
    rw [← hlen, arrayLen, usedSz_add, itemSz_add, h3.used, h3.item, hlen,
      Nat.mul_div_cancel_left _ hk]
    exact ⟨rfl, hlen ▸ h3.words⟩

/-! ### Runs with room -/

/-- The words of the heap that are used after `n` appends of items of `k` words, at the most, when
`r` are used at first. -/
def spent (k : ℕ) : ℕ → ℕ → ℕ
  | 0, r => r
  | n + 1, r => spent k n (2 * r + r / 2 + k + 10)

lemma le_spent (k n r : ℕ) : r ≤ spent k n r := by
  induction n generalizing r with
  | zero => exact le_rfl
  | succ n ih => exact le_trans (by omega) (ih _)

/-- With enough room at first every append of a run finds the words that it needs. -/
lemma runFits_of_room {xs : List ℕ} {r : ℕ} (ha : ArrayAt s b k ws)
    (hx : ∀ x ∈ xs, x + k ≤ addrSpace) (hr : Room h sz s (sz - r))
    (hle : spent k xs.length r ≤ sz) : RunFits (arrayAppend h) (CanGrow h sz) s (b + 2) xs := by
  induction xs generalizing s b ws r with
  | nil => trivial
  | cons x xs ih =>
    obtain ⟨hx₀, hxs⟩ := List.forall_mem_cons.mp hx
    rw [List.length_cons, spent] at hle
    have hr' := (le_spent k xs.length (2 * r + r / 2 + k + 10)).trans hle
    have hM := hr.block_le ha.live
    have hneed : need (arrGrown (getMemSz s.mem b) k) + minAllocSz ≤ r + r / 2 + k + 10 := by
      unfold need arrGrown minAllocSz umdsSz
      omega
    rcases append_arr hr.sound ha hx₀ with ⟨-, hno⟩ | ⟨hcan, s₁, b₁, w, h1, h2, h3⟩
    · -- the block that is needed is free
      refine absurd (.inr fun hfull => ?_) hno
      rw [memAddr_add, itemSz_add, ha.item] at hfull
      refine hfull.not_room ?_ (hr.mono (by omega))
      have := hr.sound.bounds ha.live
      unfold arrGrown umdsSz wordMod
      unfold addrSpace at this
      omega
    · refine ⟨hcan, fun s' c' h4 => ?_⟩
      obtain ⟨rfl, rfl⟩ := Prod.mk.inj (Option.some.inj (h1.symm.trans h4))
      exact ih h2.holds hxs (h3 _ (hr.mono (by omega))) hle

/-- With room for it there is a new array. -/
lemma array_room {size : ℕ} (hn : wadd (wmul size k) arrayBsz + umdsSz < wordMod)
    (hr : Room h sz s (x + need (wadd (wmul size k) arrayBsz) + minAllocSz)) :
    ∃ s' b, array h s size k = some (s', b + 2) ∧ ArrayAt s' b k [] ∧ Room h sz s' x := by
  obtain ⟨lost, t, U, hi⟩ := hr.sound
  obtain ⟨s₁, b, h1, -⟩ := alloc_meets hi hn
  obtain ⟨h0, hroom⟩ := alloc_room hn h1 hr
  rcases Sizes.array_spec size k hr.sound with
    ⟨h2, h3⟩ | ⟨s₂, s', b', h2, h3, -, -, -, -, -, -, h4⟩
  · rw [asked_eq hn] at h3
    exact absurd (hr.mono (by omega)) h3
  · obtain ⟨rfl, rfl⟩ := Prod.mk.inj (Option.some.inj (h1.symm.trans h3))
    obtain ⟨hs₁, -, hlive, -⟩ := alloc_ext hr.sound hn h1 h0
    have hb : b ∈ s₁.live := by simp [hlive]
    have hsz := (hs₁.bounds hb).2.2.1
    have hw : Wrote h sz (fun c _ => c = b) s₁ ((s₁.set b 0).set (b + 1) k) :=
      ((Wrote.refl hs₁).set (i := 0) 0 hb (by omega) rfl).set (i := 1) k hb (by omega) rfl
    refine ⟨s', b, h2, h4, ?_⟩
    rw [array, h1, Option.map_some] at h2
    dsimp only at h2
    rw [if_neg h0] at h2
    obtain ⟨rfl, -⟩ := Prod.mk.inj (Option.some.inj h2)
    exact hw.room x hroom

/-- In a heap of a megabyte at the address `8`, an array of items of two hundred words, whose block
is too small for the three of them. -/
theorem growable_low : ∃ s b, ArrayAt s b 200 [] ∧ getMemSz s.mem b < 602 ∧
    ∃ s' arr, appendAll (arrayAppend 1) s (b + 2) [2 ^ 20, 2 ^ 20 + 200, 2 ^ 20 + 400] =
      some (s', arr) ∧ arr ≠ 0 ∧ arrayLen s'.mem arr = 3 ∧
      readAll s'.mem arr 600 = itemWords s.mem 200 [2 ^ 20, 2 ^ 20 + 200, 2 ^ 20 + 400] := by
  obtain ⟨s₀, -, -, h1, -⟩ := @exists_blocks 1 (by decide) (by decide) 0 (by decide)
  obtain ⟨s, b, -, h2, h3⟩ : ∃ s b, array 1 s₀ 1 200 = some (s, b + 2) ∧ ArrayAt s b 200 [] ∧
      Room 1 (2 ^ 17) s (2 ^ 17 - 407) := array_room (by decide) (h1.mono (by decide))
  have hmem : ∀ x ∈ [2 ^ 20, 2 ^ 20 + 200, 2 ^ 20 + 400], 2 ^ 17 < x ∧ x + 200 ≤ addrSpace := by
    simp [addrSpace]
  have hb := h3.block_le h2.live
  obtain ⟨-, s', arr, h4, h5, h6⟩ := (growable h3.sound).2.2.2 b 200 [] 0
    [2 ^ 20, 2 ^ 20 + 200, 2 ^ 20 + 400] (by decide) h2 rfl fun x hx =>
      ⟨(hmem x hx).2, fun i _ => .inl (.inr (by have := (hmem x hx).1; omega))⟩
  have h0 : arr ≠ 0 := h5.mpr (runFits_of_room h2 (fun x hx => (hmem x hx).2) h3 (by decide))
  exact ⟨s, b, h2, by omega, s', arr, h4, h0, h6 h0⟩

end LispMachine.Growth
