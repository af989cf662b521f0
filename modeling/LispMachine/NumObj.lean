import LispMachine.NumHeap
import LispMachine.NumMul
import LispMachine.Owned

/-!
Numbers as objects of the heap.

A loop over the words of an object writes them one after the other. What it does to the memory is
one block of writes, the words that the list of the object turns into; all the other words of the
heap survive.
-/

namespace LispMachine.NumObj

open LispMachine.Memory LispMachine.Alloc LispMachine.Heap LispMachine.HeapFrame
open LispMachine.Owned
open LispMachine.Object LispMachine.NumHeap LispMachine.HeapRuns LispMachine.HeapInv
open LispMachine.AvlInsert LispMachine.HeapInit
open LispMachine.Bignum (adc ones addStep negateLoop trimLoop trim)
open LispMachine.BignumWf LispMachine.NumVal

variable {h sz : ℕ} {s s' s'' : HSt} {W W' : ℕ → ℕ → Prop} {a b c i j k o v x y : ℕ}
  {n n₁ n₂ ws : List ℕ}

/-! ### Runs of words -/

/-- The `k` words from `x` on. -/
def readAll (m : Mem) (x k : ℕ) : List ℕ := (List.range k).map fun i => m (x + i)

/-- The words `ws`, written from `x` on. -/
def putAll (s : HSt) (x : ℕ) : List ℕ → HSt
  | [] => s
  | w :: ws => putAll (s.set x w) (x + 1) ws

@[simp] lemma length_readAll (m : Mem) : (readAll m x k).length = k := by simp [readAll]

lemma getD_readAll (m : Mem) (hi : i < k) : (readAll m x k).getD i 0 = m (x + i) := by
  rw [List.getD_eq_getElem _ _ (by rwa [length_readAll])]
  simp [readAll]

lemma readAll_succ (m : Mem) : readAll m x (k + 1) = m x :: readAll m (x + 1) k := by
  rw [readAll, List.range_succ_eq_map, List.map_cons, List.map_map, readAll]
  refine congrArg₂ List.cons rfl (List.map_congr_left fun i _ => ?_)
  exact congrArg m (by simp only [Nat.succ_eq_add_one]; omega)

lemma readAll_moved {m m' : Mem} (h : ∀ i < k, m' (y + i) = m (x + i)) :
    readAll m' y k = readAll m x k :=
  List.map_congr_left fun i hi => h i (List.mem_range.mp hi)

lemma readAll_congr {m m' : Mem} (h : ∀ i < k, m' (x + i) = m (x + i)) :
    readAll m' x k = readAll m x k := readAll_moved h

lemma readAll_add (m : Mem) : readAll m x (j + k) = readAll m x j ++ readAll m (x + j) k := by
  rw [readAll, List.range_add, List.map_append, List.map_map]
  exact congrArg _ (List.map_congr_left fun i _ => congrArg m (by simp only; omega))

lemma mem_set (s : HSt) (x v y : ℕ) : (s.set x v).mem y = if y = x then v else s.mem y :=
  set_apply s.mem x v y

@[simp] lemma putAll_live : (putAll s x ws).live = s.live := by
  induction ws generalizing s x with
  | nil => rfl
  | cons w ws ih => exact ih

lemma putAll_eq : putAll s x ws = ⟨(putAll s x ws).mem, s.live⟩ := by
  have hlive : (putAll s x ws).live = s.live := putAll_live
  rw [← hlive]

lemma putAll_apply : (putAll s x ws).mem y =
    if x ≤ y ∧ y < x + ws.length then ws.getD (y - x) 0 else s.mem y := by
  induction ws generalizing s x with
  | nil => rw [if_neg (by simp only [List.length_nil]; omega), putAll]
  | cons w ws ih =>
    rw [putAll, ih, List.length_cons]
    by_cases hy : y = x
    · subst hy
      rw [if_neg (by omega), if_pos (by omega), mem_set, if_pos rfl, Nat.sub_self,
        List.getD_cons_zero]
    · by_cases hin : x + 1 ≤ y ∧ y < x + 1 + ws.length
      · rw [if_pos hin, if_pos (by omega), show y - x = y - (x + 1) + 1 by omega,
          List.getD_cons_succ]
      · rw [if_neg hin, if_neg (by omega), mem_set, if_neg hy]

lemma putAll_append {ws' : List ℕ} :
    putAll s x (ws ++ ws') = putAll (putAll s x ws) (x + ws.length) ws' := by
  induction ws generalizing s x with
  | nil => rfl
  | cons w ws ih =>
    rw [List.cons_append, putAll, ih, putAll, List.length_cons, Nat.add_right_comm, Nat.add_assoc]

lemma readAll_putAll : readAll (putAll s x ws).mem x ws.length = ws := by
  apply List.ext_getElem (length_readAll _)
  intro i h1 h2
  rw [← List.getD_eq_getElem _ 0 h1, getD_readAll _ h2, putAll_apply, if_pos (by omega),
    Nat.add_sub_cancel_left, List.getD_eq_getElem]

lemma readAll_putAll_of_disjoint (hd : y + k ≤ x ∨ x + ws.length ≤ y) :
    readAll (putAll s x ws).mem y k = readAll s.mem y k :=
  readAll_congr fun i hi => by rw [putAll_apply, if_neg (by omega)]

/-- Writes within one block. -/
lemma Wrote.putAll (hw : Wrote h sz W s s') (ha : a ∈ s.live)
    (hi : i + ws.length ≤ getMemSz s.mem a) (hW : ∀ j, i ≤ j → j < i + ws.length → W a j) :
    Wrote h sz W s (putAll s' (a + i) ws) := by
  induction ws generalizing s' i with
  | nil => exact hw
  | cons w ws ih =>
    rw [List.length_cons] at hi hW
    have h1 := hw.set w ha (by omega : i < getMemSz s.mem a) (hW i le_rfl (by omega))
    exact ih (i := i + 1) h1 (by omega) fun j hj hj' => hW j (by omega) (by omega)

/-! ### Full heaps -/

/-- No free block of the heap has `k` words for a user. -/
def NoRoom (h sz : ℕ) (s : HSt) (k : ℕ) : Prop := ∃ lost t U, Inv h sz s lost t U ∧ Full t k

lemma room_of_not_noRoom (hs : Sound h sz s) (hf : ¬ NoRoom h sz s k) :
    Room h sz s (need k) := by
  obtain ⟨lost, t, U, hi⟩ := hs
  have hfull : ¬ Full t k := fun h => hf ⟨lost, t, U, hi, h⟩
  unfold Full at hfull
  push Not at hfull
  exact ⟨lost, t, U, hi, hfull⟩

lemma NoRoom.not_room (hf : NoRoom h sz s k) (hk : k + umdsSz < wordMod) :
    ¬ Room h sz s (need k) := by
  obtain ⟨lost, t, U, hi, hfull⟩ := hf
  rintro ⟨lost', t', U', hi', e, he, hle⟩
  obtain ⟨s₁, p, h1, h2⟩ := alloc_meets hi hk
  obtain rfl := h2.null.mpr hfull
  rcases hi'.alloc hk with ⟨-, h3⟩ | ⟨s₂, p, w, l, rest, t'', h3, -⟩
  · exact absurd (h3 e he) (by omega)
  · have := (Prod.mk.inj (Option.some.inj (h1.symm.trans h3))).2
    omega

lemma NoRoom.mono (hf : NoRoom h sz s k) (hle : k ≤ j) : NoRoom h sz s j := by
  obtain ⟨lost, t, U, hi, hfull⟩ := hf
  exact ⟨lost, t, U, hi, fun e he => (hfull e he).trans_le (by omega)⟩

/-- The free blocks are the same after a write to the blocks of the users. -/
lemma NoRoom.of_users (hs : Sound h sz s) {m' : Mem}
    (hm : ∀ x, (∀ a ∈ s.live, ∀ i < getMemSz s.mem a, x ≠ a + i) → m' x = s.mem x)
    (hf : NoRoom h sz ⟨m', s.live⟩ k) : NoRoom h sz s k := by
  obtain ⟨lost, t, U, hi, hfull⟩ := hf
  refine ⟨lost, t, U, (Inv.users hi fun x hx => (hm x fun a ha i hi' => ?_).symm).1, hfull⟩
  exact hx a ha i (by rwa [(hs.users hm).2 a ha])

/-- A word of a user makes no room and takes none. -/
lemma noRoom_set (hs : Sound h sz s) (ha : a ∈ s.live) (hi : i < getMemSz s.mem a) :
    NoRoom h sz (s.set (a + i) v) k ↔ NoRoom h sz s k := by
  have hw : Wrote h sz (fun _ _ => True) s (s.set (a + i) v) := (Wrote.refl hs).set v ha hi trivial
  constructor
  · exact fun hf => NoRoom.of_users hs (fun x hx => set_ne _ _ (hx a ha i hi)) hf
  · refine fun hf => NoRoom.of_users hw.sound (fun x hx => ?_) hf
    exact (set_ne _ _ (hx a ha i (by rwa [hw.memSz a ha]))).symm

/-- `alloc` is refused in a full heap, and in no other. -/
lemma alloc_noRoom (hs : Sound h sz s) (hk : k + umdsSz < wordMod) :
    NoRoom h sz s k ↔ s.alloc h k = some (s, 0) := by
  constructor
  · rintro ⟨lost, t, U, hi, hfull⟩
    obtain ⟨s', a, h1, h2⟩ := alloc_meets hi hk
    obtain rfl := h2.null.mpr hfull
    exact h2.unchanged rfl ▸ h1
  · intro hr
    obtain ⟨lost, t, U, hi⟩ := hs
    obtain ⟨s', a, h1, h2⟩ := alloc_meets hi hk
    exact ⟨lost, t, U, hi, h2.null.mp (Prod.mk.inj (Option.some.inj (h1.symm.trans hr))).2⟩

lemma alloc_cases (hs : Sound h sz s) (hk : k + umdsSz < wordMod) :
    (NoRoom h sz s k ∧ s.alloc h k = some (s, 0)) ∨
      ¬ NoRoom h sz s k ∧ ∃ s' a, s.alloc h k = some (s', a) ∧ a ≠ 0 := by
  by_cases hf : NoRoom h sz s k
  · exact .inl ⟨hf, (alloc_noRoom hs hk).mp hf⟩
  · refine .inr ⟨hf, ?_⟩
    obtain ⟨lost, t, U, hi⟩ := id hs
    obtain ⟨s', a, h1, h2⟩ := alloc_meets hi hk
    refine ⟨s', a, h1, ?_⟩
    rintro rfl
    exact hf ⟨lost, t, U, hi, h2.null.mp rfl⟩

/-- Where the bound is below the heap, no block that is found can be given back. -/
lemma not_givesBack (hs : Sound h sz s) (hbound : freeBound h sz ≤ h) (hf : ¬ NoRoom h sz s k)
    (hk : k + umdsSz < wordMod) : ¬ GivesBack h sz s k := by
  intro hg
  rcases alloc_cases hs hk with ⟨h1, -⟩ | ⟨-, s', a, h1, h2⟩
  · exact hf h1
  · obtain ⟨hs', -, hlive, -⟩ := alloc_ext hs hk h1 h2
    have hb := hs'.bounds (a := a) (by simp [hlive])
    rcases hg s' a h1 with h3 | h3 <;> omega

/-! ### Number objects -/

/-- At `a` there is an object whose contents are the words of `n`. -/
structure NumAt (s : HSt) (a : ℕ) (n : List ℕ) : Prop where
  live : a + 1 ∈ s.live
  size : s.mem (size a) = n.length
  fits : n.length + 3 ≤ getMemSz s.mem (a + 1)
  words : readAll s.mem (contents a 0) n.length = n

/-- The first `k` content words of the object at `a`. -/
def Contents (a k b i : ℕ) : Prop := b = a + 1 ∧ 3 ≤ i ∧ i < k + 3

/-- The size and the content words of the object at `a`. -/
def Payload (a b i : ℕ) : Prop := b = a + 1 ∧ 2 ≤ i

lemma Contents.payload (hc : Contents a k b i) : Payload a b i := ⟨hc.1, by
  unfold Contents at hc
  omega⟩

lemma contents_eq (a i : ℕ) : contents a i = a + 1 + (i + 3) := by
  unfold contents
  omega

lemma NumAt.word (hn : NumAt s a n) (hi : i < n.length) : word s a i = n.getD i 0 := by
  have h1 := getD_readAll s.mem (x := contents a 0) hi
  rw [hn.words] at h1
  rw [NumHeap.word, h1]
  rfl

lemma NumAt.lastWord (hn : NumAt s a n) (h0 : n ≠ []) : lastWord s a = Bignum.last n := by
  have := List.length_pos_iff.mpr h0
  rw [NumHeap.lastWord, hn.size, hn.word (by omega)]
  rfl

/-- A number survives with its size and its words. -/
lemma NumAt.ext (hn : NumAt s a n) (hx : Ext W s s') (hsz : ¬ W (a + 1) 2)
    (hwords : ∀ i < n.length, ¬ W (a + 1) (i + 3)) : NumAt s' a n := by
  have hfits := hn.fits
  have h2 := hx _ hn.live 2 (by omega) hsz
  refine ⟨h2.live, h2.word.trans hn.size, by rw [h2.memSz]; exact hfits, ?_⟩
  refine (readAll_congr fun i hi => ?_).trans hn.words
  have h3 := (hx _ hn.live (i + 3) (by omega) (hwords i hi)).word
  rw [show contents a 0 + i = a + 1 + (i + 3) by rw [contents_eq]; omega]
  exact h3

/-- The block of a number survives when its words are written back. -/
lemma NumAt.restored (hn : NumAt s a n) (hx : Ext (fun b i => Contents a n.length b i ∨ W b i) s s')
    (hn' : NumAt s' a n) (hW : ¬ W (a + 1) 2) : Ext W s s' := by
  intro b hb i hi hi'
  by_cases hin : Contents a n.length b i
  · obtain ⟨rfl, h3, hlt⟩ := hin
    obtain ⟨j, rfl⟩ : ∃ j, i = j + 3 := ⟨i - 3, by omega⟩
    have hlt' : j < n.length := by omega
    have h2 := hx (a + 1) hb 2 (by omega) (not_or.mpr ⟨by unfold Contents; omega, hW⟩)
    refine ⟨h2.live, h2.memSz, ?_⟩
    have h4 := (hn'.word hlt').trans (hn.word hlt').symm
    rwa [NumHeap.word, NumHeap.word, contents_eq] at h4
  · exact hx b hb i hi (not_or.mpr ⟨hin, hi'⟩)

/-- Another object has changed. -/
lemma NumAt.other (hn : NumAt s a n) (hw : Wrote h sz (Payload o) s s') (hne : a ≠ o) :
    NumAt s' a n :=
  hn.ext hw.ext (by unfold Payload; omega) fun i _ => by unfold Payload; omega

/-- The words of a number are replaced by as many others. -/
lemma NumAt.putAll (hs : Sound h sz s) (hn : NumAt s a n) (hlen : ws.length = n.length) :
    Wrote h sz (Contents a n.length) s (putAll s (contents a 0) ws) ∧
      NumAt (putAll s (contents a 0) ws) a ws := by
  have hfits := hn.fits
  have hw : Wrote h sz (Contents a n.length) s (NumObj.putAll s (contents a 0) ws) :=
    Wrote.putAll (i := 3) (Wrote.refl hs) hn.live (by omega) fun j hj hj' => ⟨rfl, hj, by omega⟩
  have hlive : a + 1 ∈ (NumObj.putAll s (contents a 0) ws).live := by
    rw [putAll_live]
    exact hn.live
  refine ⟨hw, hlive, ?_, ?_, readAll_putAll⟩
  · rw [putAll_apply, if_neg (by unfold contents Object.size; omega), hn.size, hlen]
  · rw [hw.memSz _ hn.live, hlen]
    exact hfits

lemma NumAt.slice (hn : NumAt s a n) (hik : i + k ≤ n.length) :
    readAll s.mem (contents a i) k = (n.drop i).take k := by
  apply List.ext_getElem (by rw [length_readAll, List.length_take, List.length_drop]; omega)
  intro j h1 h2
  have hj : j < k := by rwa [length_readAll] at h1
  rw [← List.getD_eq_getElem _ 0 h1, getD_readAll _ hj, List.getElem_take, List.getElem_drop,
    ← List.getD_eq_getElem _ 0 (by omega), ← hn.word (by omega)]
  exact congrArg s.mem (by unfold contents; omega)

/-- Some of the words of a number are replaced. -/
lemma NumAt.putAt (hs : Sound h sz s) (hn : NumAt s a n) (hi : i + ws.length ≤ n.length) :
    Wrote h sz (Payload a) s (NumObj.putAll s (contents a i) ws) ∧
      NumAt (NumObj.putAll s (contents a i) ws) a
        (n.take i ++ ws ++ n.drop (i + ws.length)) := by
  have hfits := hn.fits
  have hw : Wrote h sz (Payload a) s (NumObj.putAll s (contents a i) ws) := by
    rw [contents_eq]
    exact Wrote.putAll (Wrote.refl hs) hn.live (by omega) fun j hj _ => ⟨rfl, by omega⟩
  have hlen : (n.take i ++ ws ++ n.drop (i + ws.length)).length = n.length := by
    rw [List.length_append, List.length_append, List.length_take, List.length_drop]
    omega
  refine ⟨hw, hw.live ▸ hn.live, ?_, by rw [hlen, hw.memSz _ hn.live]; exact hfits, ?_⟩
  · rw [putAll_apply, if_neg (by unfold contents Object.size; omega), hn.size, hlen]
  · have hsum : n.length = i + ws.length + (n.length - (i + ws.length)) := by omega
    have hmid : contents a 0 + i = contents a i := by unfold contents; omega
    have hhigh : contents a 0 + (i + ws.length) = contents a (i + ws.length) := by
      unfold contents
      omega
    rw [hlen, hsum, readAll_add, readAll_add, hmid, hhigh, readAll_putAll,
      readAll_putAll_of_disjoint (.inl (by unfold contents; omega)),
      readAll_putAll_of_disjoint (.inr (by unfold contents; omega)), hn.slice (by omega),
      hn.slice (by omega), List.drop_zero, List.take_of_length_le (l := n.drop _)
      (by rw [List.length_drop])]

/-- A number is written into an object, its size first. -/
lemma fill_spec (ws : List ℕ) (hs : Sound h sz s) (ho : o + 1 ∈ s.live)
    (hroom : ws.length + 3 ≤ getMemSz s.mem (o + 1)) :
    Wrote h sz (Payload o) s (putAll (s.set (size o) ws.length) (contents o 0) ws) ∧
      NumAt (putAll (s.set (size o) ws.length) (contents o 0) ws) o ws := by
  have h1 : Wrote h sz (Payload o) s (s.set (size o) ws.length) :=
    (Wrote.refl hs).set (a := o + 1) (i := 2) _ ho (by omega) ⟨rfl, le_rfl⟩
  have h2 : Wrote h sz (Payload o) s (putAll (s.set (size o) ws.length) (contents o 0) ws) :=
    Wrote.putAll (i := 3) h1 ho (by omega) fun j hj _ => ⟨rfl, by omega⟩
  refine ⟨h2, h2.live ▸ ho, ?_, ?_, readAll_putAll⟩
  · rw [putAll_apply, if_neg (by unfold contents size; omega), mem_set, if_pos rfl]
  · rw [h2.memSz _ ho]
    exact hroom

/-! ### Negation -/

lemma negateWords_eq (carry : ℕ) : negateWords a k i carry s =
    putAll s (contents a i) (negateLoop carry (readAll s.mem (contents a i) k)) := by
  induction k generalizing i carry s with
  | zero => rfl
  | succ k ih =>
    rw [negateWords, readAll_succ, negateLoop]
    dsimp only
    rw [ih, putAll]
    have hnext : contents a (i + 1) = contents a i + 1 := rfl
    rw [hnext, setWord, readAll_congr (m := s.mem) fun j _ => by rw [mem_set, if_neg (by omega)]]
    rfl

/-- **Negation** in place. -/
lemma numNegate_spec (hs : Sound h sz s) (hn : NumAt s a n) :
    Wrote h sz (Contents a n.length) s (numNegate s a) ∧
      NumAt (numNegate s a) a (Bignum.numNegate n) := by
  rw [numNegate, negateWords_eq, hn.size, hn.words]
  exact hn.putAll hs length_numNegate

lemma numNegate_noRoom (hs : Sound h sz s) (hn : NumAt s a n)
    (hf : NoRoom h sz (numNegate s a) k) : NoRoom h sz s k := by
  have hfits := hn.fits
  have heq : numNegate s a =
      ⟨(putAll s (contents a 0) (Bignum.numNegate n)).mem, s.live⟩ := by
    rw [numNegate, negateWords_eq, hn.size, hn.words, ← putAll_eq]
    rfl
  rw [heq] at hf
  refine NoRoom.of_users hs (fun x hx => ?_) hf
  rw [putAll_apply, if_neg]
  rintro ⟨h1, h2⟩
  rw [length_numNegate] at h2
  unfold contents at h1 h2
  exact hx (a + 1) hn.live (x - (a + 1)) (by omega) (by omega)

/-- The contents of two objects do not overlap. -/
lemma apart_contents (hs : Sound h sz s) (ha : a + 1 ∈ s.live) (hb : b + 1 ∈ s.live) (hne : a ≠ b)
    (hj : j + 3 ≤ getMemSz s.mem (a + 1)) (hk : k + 3 ≤ getMemSz s.mem (b + 1)) :
    a + j ≤ b ∨ b + k ≤ a := by
  by_contra hover
  rw [not_or, not_le, not_le] at hover
  have h1 := (hs.bounds ha).2.2.1
  have h2 := (hs.bounds hb).2.2.1
  rcases Nat.lt_or_ge a b with hlt | hge
  · obtain ⟨h3, -⟩ := hs.word_inj (i := b - a) (j := 0) ha hb (by omega) (by omega) (by omega)
    omega
  · obtain ⟨h3, -⟩ := hs.word_inj (i := 0) (j := a - b) ha hb (by omega) (by omega) (by omega)
    omega

/-! ### New objects -/

/-- What a new object of the type `ty` at `o` begins with: room for `k` words, and no references to
it. Of the older objects, only the references to the type change. -/
structure New (h sz ty k nWords : ℕ) (s s' : HSt) (o : ℕ) : Prop where
  sound : Sound h sz s'
  live : s'.live = (o + 1) :: s.live
  ext : Ext (fun b i => b = ty + 1 ∧ i = 0) s s'
  room : k + 3 ≤ getMemSz s'.mem (o + 1)
  refcount : s'.mem (refcount o) = 0
  type : s'.mem (type o) = 8 * ty
  size : s'.mem (size o) = nWords
  counted : s'.mem (Object.refcount ty) = wadd (s.mem (Object.refcount ty)) 1
  leaves : ∀ x, Room h sz s (x + need (k + 3) + minAllocSz) → Room h sz s' x
  took : ∀ s₀ U P, Took h sz s₀ U s P → Took h sz s₀ U s' ((o + 1) :: P)
  found : ∃ s₁, s.alloc h (k + 3) = some (s₁, o + 1)

lemma New.fresh {ty nWords : ℕ} (hw : New h sz ty k nWords s s' o) : o + 1 ∉ s.live := by
  have := hw.sound.nodup
  rw [hw.live] at this
  exact (List.nodup_cons.mp this).1

/-- The object is in the block that `alloc` found. -/
lemma New.givesBack {ty nWords : ℕ} (hw : New h sz ty k nWords s s' o) :
    GivesBack h sz s (k + 3) ↔ o + 1 < freeBound h sz := by
  obtain ⟨s₁, h1⟩ := hw.found
  constructor
  · exact fun hg => (hg s₁ _ h1).resolve_left (Nat.succ_ne_zero o)
  · intro hlt s₂ a h2
    obtain ⟨-, rfl⟩ := Prod.mk.inj (Option.some.inj (h1.symm.trans h2))
    exact .inr hlt

lemma New.mem {ty nWords : ℕ} (hw : New h sz ty k nWords s s' o) : o + 1 ∈ s'.live := by
  rw [hw.live]
  exact List.mem_cons_self

/-- An older number is not touched, and does not overlap the new object. -/
lemma New.older {ty nWords : ℕ} (hw : New h sz ty k nWords s s' o) (hn : NumAt s a n) :
    NumAt s' a n ∧ a ≠ o ∧ ∀ j, j ≤ k → a + n.length ≤ o ∨ o + j ≤ a := by
  have h1 : NumAt s' a n := hn.ext hw.ext (by omega) (by omega)
  have hne : a ≠ o := fun heq => hw.fresh (heq ▸ hn.live)
  have hroom := hw.room
  exact ⟨h1, hne, fun j hj => apart_contents hw.sound h1.live hw.mem hne h1.fits (by omega)⟩

lemma copyContents_eq {src : ℕ} (hd : src + k ≤ contents o 0 ∨ contents o 0 + k ≤ src) :
    copyContents o src k s = putAll s (contents o 0) (readAll s.mem src k) := by
  induction k with
  | zero => rfl
  | succ k ih =>
    have hsplit : readAll s.mem src (k + 1) = readAll s.mem src k ++ [s.mem (src + k)] := by
      rw [readAll_add]
      simp [readAll]
    rw [copyContents, ih (by omega), hsplit, putAll_append, length_readAll, putAll, putAll,
      putAll_apply, length_readAll, if_neg (by omega)]
    rfl

lemma object_full (ty src : ℕ) {nWords : ℕ} (hf : NoRoom h sz s (k + 3)) (hk : k + 4 < wordMod)
    (hn : nWords ≤ k) : object h s ty k src nWords = some (s, 0) := by
  have hreq : wsub (wadd k objSz) 1 = k + 3 := by
    unfold objSz
    rw [wadd_eq (by omega), wsub_eq (by omega) (by omega)]
    omega
  have hn4 : k + 3 + umdsSz < wordMod := by
    unfold umdsSz
    omega
  obtain ⟨lost, t, U, hi, hfull⟩ := hf
  obtain ⟨s₁, p, h1, h2⟩ := alloc_meets hi hn4
  obtain rfl := h2.null.mpr hfull
  obtain rfl := h2.unchanged rfl
  rw [object, if_neg (by omega), hreq, h1, Option.map_some]
  exact congrArg _ (if_pos rfl)

/-- **`object`**: without contents, or with those of an older object. -/
lemma object_spec (ty k src nWords : ℕ) (hs : Sound h sz s) (hty : ty + 1 ∈ s.live)
    (hk : k + 4 < wordMod) (hn : nWords ≤ k)
    (hsrc : src = 0 ∨ ∃ b, b + 1 ∈ s.live ∧ src = contents b 0 ∧
      nWords + 3 ≤ getMemSz s.mem (b + 1)) :
    (NoRoom h sz s (k + 3) ∧ object h s ty k src nWords = some (s, 0)) ∨
      ∃ s' o, o ≠ 0 ∧ object h s ty k src nWords = some (s', o) ∧
        New h sz ty k nWords s s' o ∧
          (src ≠ 0 → readAll s'.mem (contents o 0) nWords = readAll s.mem src nWords) := by
  have hlow := hs.bounds hty
  have hty0 : ty ≠ 0 := by omega
  have hreq : wsub (wadd k objSz) 1 = k + 3 := by
    rw [wadd_eq (by unfold objSz; omega), wsub_eq (by unfold objSz; omega) (by unfold objSz; omega)]
    unfold objSz
    omega
  have hn4 : k + 3 + umdsSz < wordMod := by unfold umdsSz; omega
  rw [object, if_neg (by omega), hreq]
  obtain ⟨s₁, p, halloc, hmeets⟩ : ∃ s₁ p, s.alloc h (k + 3) = some (s₁, p) ∧
      (p = 0 → s₁ = s ∧ NoRoom h sz s (k + 3)) := by
    obtain ⟨lost, t, U, hi⟩ := hs
    obtain ⟨s₁, p, h1, h2⟩ := alloc_meets hi hn4
    exact ⟨s₁, p, h1, fun h0 => ⟨h2.unchanged h0, lost, t, U, hi, h2.null.mp h0⟩⟩
  rw [halloc, Option.map_some]
  dsimp only
  by_cases hp : p = 0
  · obtain ⟨rfl, hfull⟩ := hmeets hp
    rw [if_pos hp]
    exact .inl ⟨hfull, rfl⟩
  right
  obtain ⟨hs₁, hx₁, hlive₁, hsz₁⟩ := alloc_ext hs hn4 halloc hp
  have hlow₁ := hs₁.bounds (a := p) (by simp [hlive₁])
  obtain ⟨o, rfl⟩ : ∃ o, p = o + 1 := ⟨p - 1, by omega⟩
  have hnd := hs₁.nodup
  rw [hlive₁] at hnd
  have hfresh : o + 1 ∉ s.live := (List.nodup_cons.mp hnd).1
  have hne : o ≠ ty := fun heq => hfresh (heq ▸ hty)
  have ho : o + 1 ∈ s₁.live := by simp [hlive₁]
  have hold : ∀ b ∈ s.live, b ∈ s₁.live := fun b hb => hlive₁ ▸ List.mem_cons_of_mem _ hb
  rw [if_neg hp]
  simp only [Nat.add_sub_cancel, ne_eq, hty0, not_false_eq_true, if_true]
  set s₂ := (incRefcount ((s₁.set (refcount o) 0).setPtr (Object.type o) ty) ty 1).set (size o)
    nWords with hs₂
  -- the writes before the contents are copied
  have w₁ : Wrote h sz (fun b i => b = o + 1 ∧ i < 3 ∨ b = ty + 1 ∧ i = 0) s₁ s₂ :=
    ((((Wrote.refl hs₁).set (a := o + 1) (i := 0) 0 ho (by omega) (.inl ⟨rfl, by omega⟩)).set
      (a := o + 1) (i := 1) (8 * ty) ho (by omega) (.inl ⟨rfl, by omega⟩)).incRefcount 1
      (hold _ hty) (.inr ⟨rfl, rfl⟩)).set (a := o + 1) (i := 2) nWords ho (by omega)
      (.inl ⟨rfl, by omega⟩)
  have ho₂ : o + 1 ∈ s₂.live := w₁.live ▸ ho
  have hapart : ∀ j < 3, o + 1 + j ≠ ty + 1 := fun j hj heq =>
    hne (by
      have := hs₁.word_inj (j := 0) ho (hold _ hty) (by omega)
        (by have := (hs₁.bounds (hold _ hty)).2.2.1; omega) heq
      omega)
  have h0 := hapart 0 (by omega)
  have h1 := hapart 1 (by omega)
  have h2 := hapart 2 (by omega)
  have hcount : s₁.mem (ty + 1) = s.mem (ty + 1) := (hx₁ _ hty 0 (by omega) id).word
  have hfield : s₂.mem (refcount o) = 0 ∧ s₂.mem (Object.type o) = 8 * ty ∧
      s₂.mem (size o) = nWords ∧ s₂.mem (refcount ty) = wadd (s.mem (refcount ty)) 1 := by
    simp only [hs₂, incRefcount, mem_set, HSt.setPtr, setPtr_apply, refcount, Object.type, size,
      if_true, hcount]
    refine ⟨?_, ?_, ?_⟩
    · rw [if_neg (by omega), if_neg (by omega), if_neg (by omega)]
    · rw [if_neg (by omega), if_neg (by omega)]
    · rw [if_neg (by omega), if_neg (by omega), if_neg (by omega)]
      exact ⟨trivial, rfl⟩
  have hkeep : ∀ s₃, Wrote h sz (Contents o nWords) s₂ s₃ → New h sz ty k nWords s s₃ o := by
    intro s₃ w₂
    have hmem : ∀ i < 3, s₃.mem (o + 1 + i) = s₂.mem (o + 1 + i) := fun i hi =>
      (w₂.ext _ ho₂ i (by rw [w₁.memSz _ ho]; omega) (by unfold Contents; omega)).word
    have hty₂ : ty + 1 ∈ s₂.live := w₁.live ▸ hold _ hty
    have hmemty := (w₂.ext _ hty₂ 0 (by have := (w₁.sound.bounds hty₂).2.2.1; omega) (by
      unfold Contents
      omega)).word
    refine ⟨w₂.sound, by rw [w₂.live, w₁.live, hlive₁], fun b hb i hi hn => ?_, ?_,
      (hmem 0 (by omega)).trans hfield.1, (hmem 1 (by omega)).trans hfield.2.1,
      (hmem 2 (by omega)).trans hfield.2.2.1, hmemty.trans hfield.2.2.2,
      fun x hx => w₂.room x (w₁.room x (alloc_room hn4 halloc hx).2),
      fun s₀ U P ht => ((ht.alloc hn4 halloc hp).wrote w₁).wrote w₂, s₁, halloc⟩
    · refine ((hx₁.trans w₁.ext).trans w₂.ext) b hb i hi ?_
      rintro ((hf | ⟨rfl, -⟩ | hf) | ⟨rfl, -⟩)
      · exact hf
      · exact hfresh hb
      · exact hn hf
      · exact hfresh hb
    · rw [w₂.memSz _ ho₂, w₁.memSz _ ho]
      exact hsz₁
  by_cases hz : src = 0
  · rw [if_neg (not_not.mpr hz)]
    exact ⟨s₂, o, by omega, rfl, hkeep _ (Wrote.refl w₁.sound), fun h => absurd hz h⟩
  rw [if_pos hz]
  obtain ⟨b, hb, rfl, hroom⟩ := hsrc.resolve_left hz
  -- the older object does not overlap the new one
  have hread : readAll s₂.mem (contents b 0) nWords = readAll s.mem (contents b 0) nWords := by
    refine readAll_congr fun i hi => ?_
    rw [show contents b 0 + i = b + 1 + (i + 3) by rw [contents_eq]; omega]
    refine ((hx₁.trans w₁.ext) (b + 1) hb (i + 3) (by omega) ?_).word
    rintro (hf | ⟨hf, -⟩ | ⟨-, hf⟩)
    · exact hf
    · exact hfresh (hf ▸ hb)
    · omega
  have hdisj : contents b 0 + nWords ≤ contents o 0 ∨ contents o 0 + nWords ≤ contents b 0 := by
    have hroom₁ : nWords + 3 ≤ getMemSz s₁.mem (b + 1) := by
      rw [(hx₁ _ hb 0 (by omega) id).memSz]
      exact hroom
    have := apart_contents hs₁ (hold _ hb) ho (fun heq => hfresh (heq ▸ hb)) hroom₁
      (by omega : nWords + 3 ≤ _)
    unfold contents
    omega
  rw [copyContents_eq hdisj]
  have w₂ : Wrote h sz (Contents o nWords) s₂ (putAll s₂ (contents o 0)
      (readAll s₂.mem (contents b 0) nWords)) :=
    Wrote.putAll (i := 3) (Wrote.refl w₁.sound) ho₂
      (by rw [length_readAll, w₁.memSz _ ho]; omega) fun j hj hj' =>
        ⟨rfl, hj, by rw [length_readAll] at hj'; omega⟩
  refine ⟨_, o, by omega, rfl, hkeep _ w₂, fun _ => ?_⟩
  rw [← hread]
  have hlen : (readAll s₂.mem (contents b 0) nWords).length = nWords := length_readAll _
  exact (congrArg (readAll _ _) hlen.symm).trans readAll_putAll

/-! ### Writing a number into a new object -/

/-- What an operation leaves behind that returns a new number: the object of it at `r`, without
references. Of the older objects, only the references to the type have changed. -/
structure Made (h sz ty : ℕ) (s s' : HSt) (r : ℕ) (n : List ℕ) : Prop where
  sound : Sound h sz s'
  live : s'.live = (r + 1) :: s.live
  ext : Ext (fun b i => b = ty + 1 ∧ i = 0) s s'
  num : NumAt s' r n
  refcount : s'.mem (refcount r) = 0
  type : s'.mem (type r) = 8 * ty
  counted : s'.mem (Object.refcount ty) = wadd (s.mem (Object.refcount ty)) 1

/-- Such a number, for which one block was taken. -/
structure Single (h sz ty : ℕ) (s s' : HSt) (r : ℕ) (n : List ℕ) : Prop
    extends Made h sz ty s s' r n where
  took : ∀ s₀ U P, Took h sz s₀ U s P → Took h sz s₀ U s' ((r + 1) :: P)

lemma New.setSize {ty nWords : ℕ} (v : ℕ) (hw : New h sz ty k nWords s s' o) :
    Wrote h sz (Payload o) s' (s'.set (Object.size o) v) := by
  have hroom := hw.room
  exact (Wrote.refl hw.sound).set (a := o + 1) (i := 2) v hw.mem (by omega) ⟨rfl, le_rfl⟩

/-- The size is set, and then the words are written. -/
lemma New.numAt {ty nWords : ℕ} (ws : List ℕ) (hw : New h sz ty k nWords s s' o)
    (hk : ws.length ≤ k) :
    Wrote h sz (Payload o) s' (putAll (s'.set (Object.size o) ws.length) (contents o 0) ws) ∧
      NumAt (putAll (s'.set (Object.size o) ws.length) (contents o 0) ws) o ws :=
  fill_spec ws hw.sound hw.mem (by have := hw.room; omega)

/-- The operands, whose words are those of `W`, may change before and after the object is made; in
the end they are as at first. -/
lemma New.made_between {ty nWords : ℕ} {s₁ s₂ : HSt} (hty : ty + 1 ∈ s.live)
    (h₁ : Wrote h sz W s s₁) (hw : New h sz ty k nWords s₁ s₂ o)
    (h₂ : Wrote h sz (fun c i => W c i ∨ Payload o c i) s₂ s') (hW : ∀ c i, W c i → 3 ≤ i)
    (hWo : ∀ i, ¬ W (o + 1) i) (hn : NumAt s' o n)
    (hrest : Ext (fun c i => W c i ∨ c = ty + 1 ∧ i = 0) s s' →
      Ext (fun c i => c = ty + 1 ∧ i = 0) s s') : Single h sz ty s s' o n := by
  have hroom := hw.room
  have htylive : ty + 1 ∈ s₂.live := by
    rw [hw.live, h₁.live]
    exact List.mem_cons_of_mem _ hty
  have hne : ty + 1 ≠ o + 1 := fun heq => hw.fresh (heq ▸ h₁.live ▸ hty)
  have hlow := (hw.sound.bounds htylive).2.2.1
  have hlow' : 0 < getMemSz s.mem (ty + 1) := by
    have := h₁.sound.bounds (h₁.live ▸ hty)
    rw [h₁.memSz _ hty] at this
    omega
  have hmem : ∀ i < 2, s'.mem (o + 1 + i) = s₂.mem (o + 1 + i) := fun i hi =>
    (h₂.ext _ hw.mem i (by omega) (not_or.mpr ⟨hWo i, by unfold Payload; omega⟩)).word
  have hmemty : s'.mem (ty + 1) = s₂.mem (ty + 1) :=
    (h₂.ext _ htylive 0 (by omega) (not_or.mpr ⟨fun hf => absurd (hW _ _ hf) (by omega), by
      unfold Payload
      omega⟩)).word
  have hmemty₁ : s₁.mem (ty + 1) = s.mem (ty + 1) :=
    (h₁.ext _ hty 0 hlow' fun hf => absurd (hW _ _ hf) (by omega)).word
  refine ⟨⟨h₂.sound, h₂.live.trans (hw.live.trans (by rw [h₁.live])), hrest ?_, hn,
    (hmem 0 (by omega)).trans hw.refcount, (hmem 1 (by omega)).trans hw.type,
    hmemty.trans (hw.counted.trans (by rw [Object.refcount, hmemty₁]))⟩,
    fun s₀ U P ht => (hw.took s₀ U P (ht.wrote h₁)).wrote h₂⟩
  intro c hc i hi hx
  refine ((h₁.ext.trans hw.ext).trans h₂.ext) c hc i hi ?_
  rintro ((hf | hf) | (hf | ⟨rfl, -⟩))
  · exact hx (.inl hf)
  · exact hx (.inr hf)
  · exact hx (.inl hf)
  · exact hw.fresh (h₁.live ▸ hc)

lemma New.made {ty nWords : ℕ} (hs : Sound h sz s) (hw : New h sz ty k nWords s s' o)
    (hty : ty + 1 ∈ s.live) (hp : Wrote h sz (Payload o) s' s'') (hn : NumAt s'' o n) :
    Single h sz ty s s'' o n := by
  exact New.made_between (W := fun _ _ => False) hty (.refl hs) hw
    (hp.mono fun _ _ => .inr) (fun _ _ => False.elim)
    (fun _ => id) hn fun hx => hx.mono fun c i hc => hc.resolve_left id

lemma Sound.header (hs : Sound h sz s) (ha : a + 1 ∈ s.live) :
    s.mem a = getMemSz s.mem (a + 1) + 1 := by
  obtain ⟨lost, t, U, hi⟩ := hs
  obtain ⟨p, l, V, heq, hU, -⟩ := hi.exists_block ha
  obtain rfl : a = p := Nat.succ_injective heq
  have hp : (a, l) ∈ U := hU.symm.subset List.mem_cons_self
  obtain ⟨h1, h2, -⟩ := hi.getMemSz_eq hp
  have h3 := hi.blocks.header _ hp
  simp only at h3
  omega

/-- Whether the object has room for one more word. -/
lemma append_full_iff (hs : Sound h sz s) (hn : NumAt s a n) :
    wsub (s.mem a) objSz ≤ s.mem (size a) ↔ ¬ n.length + 4 ≤ getMemSz s.mem (a + 1) := by
  have hbounds := hs.bounds hn.live
  have hfits := hn.fits
  have hsp : addrSpace < wordMod := by decide
  have hmax : wsub (s.mem a) objSz = getMemSz s.mem (a + 1) - 3 := by
    rw [Sound.header hs hn.live, wsub_eq (by unfold objSz; omega) (by omega)]
    unfold objSz
    omega
  rw [hmax, hn.size]
  omega

/-- **`object_append_word`** with room for one more. -/
lemma append_spec (hs : Sound h sz s) (hn : NumAt s a n)
    (hroom : n.length + 4 ≤ getMemSz s.mem (a + 1)) :
    ∃ s', objectAppendWord h s a v = some (s', a) ∧ Wrote h sz (Payload a) s s' ∧
      NumAt s' a (n ++ [v]) := by
  have hlow := hs.bounds hn.live
  have hsp : addrSpace < wordMod := by decide
  have hsize : s.mem (size a) = n.length := hn.size
  have hcell : (s.set (contents a n.length) v).mem (size a) = n.length := by
    rw [mem_set, if_neg (by unfold contents size; omega), hsize]
  rw [objectAppendWord, if_neg (by omega)]
  dsimp only
  rw [if_neg ((append_full_iff hs hn).not.mpr (not_not.mpr hroom)), Option.map_some]
  dsimp only
  rw [if_neg (by omega), hsize, hcell, wadd_eq (by omega)]
  have h1 : Wrote h sz (Payload a) s (s.set (contents a n.length) v) := by
    have := (Wrote.refl (W := Payload a) hs).set (i := n.length + 3) v hn.live (by omega)
      ⟨rfl, by omega⟩
    rwa [← contents_eq] at this
  have h2 : Wrote h sz (Payload a) s ((s.set (contents a n.length) v).set (size a)
      (n.length + 1)) := h1.set (a := a + 1) (i := 2) _ hn.live (by omega) ⟨rfl, le_rfl⟩
  refine ⟨_, rfl, h2, h2.live ▸ hn.live, ?_, ?_, ?_⟩
  · rw [mem_set, if_pos rfl, List.length_append, List.length_singleton]
  · rw [h2.memSz _ hn.live, List.length_append, List.length_singleton]
    omega
  · rw [List.length_append, List.length_singleton, readAll_add]
    have hlow' : readAll ((s.set (contents a n.length) v).set (size a) (n.length + 1)).mem
        (contents a 0) n.length = n := by
      refine (readAll_congr fun i hi => ?_).trans hn.words
      rw [mem_set, if_neg (by unfold contents size; omega), mem_set,
        if_neg (by unfold contents; omega)]
    rw [hlow']
    refine congrArg _ ?_
    simp only [readAll, List.range_one, List.map_cons, List.map_nil]
    rw [mem_set, if_neg (by unfold contents size; omega), mem_set,
      if_pos (by unfold contents; omega)]

lemma Made.fresh {ty : ℕ} (hm : Made h sz ty s s' o n) : o + 1 ∉ s.live := by
  have := hm.sound.nodup
  rw [hm.live] at this
  exact (List.nodup_cons.mp this).1

/-- An older number is not touched. -/
lemma Made.older {ty : ℕ} (hm : Made h sz ty s s' o n₂) (hn : NumAt s a n₁) :
    NumAt s' a n₁ ∧ a ≠ o :=
  ⟨hn.ext hm.ext (by omega) (by omega), fun heq => hm.fresh (heq ▸ hn.live)⟩

/-! ### Appending to a new number -/

lemma Made.mem {ty : ℕ} (hm : Made h sz ty s s' o n) : o + 1 ∈ s'.live := by
  rw [hm.live]
  exact List.mem_cons_self

/-- The new number is written over. -/
lemma Made.wrote {ty : ℕ} (hm : Made h sz ty s s' o n) (hty : ty + 1 ∈ s.live)
    (hw : Wrote h sz (Payload o) s' s'') (hn : NumAt s'' o n₂) : Made h sz ty s s'' o n₂ := by
  have hlive : o + 1 ∈ s'.live := by
    rw [hm.live]
    exact List.mem_cons_self
  have htylive : ty + 1 ∈ s'.live := by
    rw [hm.live]
    exact List.mem_cons_of_mem _ hty
  have hlow := (hm.sound.bounds hlive).2.2.1
  have hlowty := (hm.sound.bounds htylive).2.2.1
  have hne : ty + 1 ≠ o + 1 := fun heq => hm.fresh (heq ▸ hty)
  have hkeep : ∀ i < 2, s''.mem (o + 1 + i) = s'.mem (o + 1 + i) := fun i hi =>
    (hw.ext _ hlive i (by omega) (by unfold Payload; omega)).word
  have hcount : s''.mem (ty + 1 + 0) = s'.mem (ty + 1 + 0) :=
    (hw.ext _ htylive 0 (by omega) fun hp => hne hp.1).word
  refine ⟨hw.sound, hw.live.trans hm.live, fun c hc i hi hi' => ?_, hn,
    (hkeep 0 (by omega)).trans hm.refcount, (hkeep 1 (by omega)).trans hm.type,
    hcount.trans hm.counted⟩
  refine (hm.ext.trans hw.ext) c hc i hi ?_
  rintro (hf | ⟨rfl, -⟩)
  · exact hi' hf
  · exact hm.fresh hc

lemma Single.wrote {ty : ℕ} (hm : Single h sz ty s s' o n) (hty : ty + 1 ∈ s.live)
    (hw : Wrote h sz (Payload o) s' s'') (hn : NumAt s'' o n₂) : Single h sz ty s s'' o n₂ :=
  ⟨hm.toMade.wrote hty hw hn, fun s₀ U P ht => (hm.took s₀ U P ht).wrote hw⟩

/-- **Appending** a word to a new number that has room for it. -/
lemma append_within {ty : ℕ} (v : ℕ) (hm : Made h sz ty s s' o n) (hty : ty + 1 ∈ s.live)
    (hroom : n.length + 4 ≤ getMemSz s'.mem (o + 1)) :
    ∃ s'', objectAppendWord h s' o v = some (s'', o) ∧ Made h sz ty s s'' o (n ++ [v]) ∧
      getMemSz s''.mem (o + 1) = getMemSz s'.mem (o + 1) ∧
      ∀ x, Room h sz s' x → Room h sz s'' x := by
  obtain ⟨s'', h1, hw, hn⟩ := append_spec (v := v) hm.sound hm.num hroom
  exact ⟨s'', h1, Made.wrote hm hty hw hn, hw.memSz _ hm.mem, hw.room⟩

/-- The words for which `object_append_word` asks when it moves an object of `k` words. -/
def grown (k : ℕ) : ℕ := k + k / 2 + 5

/-- The block of a new number moves. -/
lemma Made.moved {l ty : ℕ} (hm : Made h sz ty s s' o n) (hty : ty + 1 ∈ s.live)
    (hn : l + umdsSz < wordMod) (hl : n.length + 3 ≤ l) :
    (NoRoom h sz s' l ∧ s'.realloc h (o + 1) l = some (s', 0)) ∨
      ∃ s'' r, s'.realloc h (o + 1) l = some (s'', r + 1) ∧ Made h sz ty s s'' r n ∧
        l ≤ getMemSz s''.mem (r + 1) ∧
        ∀ x, Room h sz s' (x + need l + minAllocSz) → Room h sz s'' x := by
  have hfits := hm.num.fits
  obtain ⟨s₁, p, h1, h2, h3⟩ : ∃ s₁ p, s'.realloc h (o + 1) l = some (s₁, p) ∧
      (p = 0 → s₁ = s' ∧ NoRoom h sz s' l) ∧
      (p ≠ 0 → ∀ i < n.length + 3, s₁.mem (p + i) = s'.mem (o + 1 + i)) := by
    obtain ⟨lost, t, U, hi⟩ := hm.sound
    obtain ⟨s₁, p, h1, h2⟩ := realloc_meets hi hm.mem hn
    exact ⟨s₁, p, h1, fun h0 => ⟨h2.unchanged h0, lost, t, U, hi, h2.null.mp h0⟩,
      fun h0 i hi' => h2.copied h0 i (by omega)⟩
  by_cases hp : p = 0
  · subst hp
    obtain ⟨rfl, hfull⟩ := h2 rfl
    exact .inl ⟨hfull, h1⟩
  obtain ⟨r, rfl⟩ : ∃ r, p = r + 1 := ⟨p - 1, by omega⟩
  obtain ⟨hs₁, hx, hlive, hroom⟩ := realloc_ext hm.sound hm.mem hn h1 hp
  have hcopy := h3 hp
  rw [hm.live, List.erase_cons_head] at hlive
  have hlow := (hs₁.bounds (a := ty + 1) (by rw [hlive]; exact List.mem_cons_of_mem _ hty)).2.2.1
  have htylive : ty + 1 ∈ s'.live := by
    rw [hm.live]
    exact List.mem_cons_of_mem _ hty
  have hlowty := (hm.sound.bounds htylive).2.2.1
  have hcount : s₁.mem (ty + 1 + 0) = s'.mem (ty + 1 + 0) :=
    (hx _ htylive 0 (by omega) fun heq => hm.fresh (heq ▸ hty)).word
  refine .inr ⟨s₁, r, h1, ⟨hs₁, hlive, fun c hc i hi hi' => ?_, ⟨?_, ?_, by omega, ?_⟩,
    (hcopy 0 (by omega)).trans hm.refcount, (hcopy 1 (by omega)).trans hm.type,
    hcount.trans hm.counted⟩, hroom, fun x hx => (realloc_room hm.mem hn h1 hx).2⟩
  · refine (hm.ext.trans hx) c hc i hi ?_
    rintro (hf | rfl)
    · exact hi' hf
    · exact hm.fresh hc
  · rw [hlive]
    exact List.mem_cons_self
  · exact (hcopy 2 (by omega)).trans hm.num.size
  · refine (readAll_moved fun i hi => ?_).trans hm.num.words
    have := hcopy (i + 3) (by omega)
    rwa [← contents_eq, ← contents_eq] at this

/-- **Appending** a word to a new number, which may move. -/
lemma append_cases {ty : ℕ} (v : ℕ) (hm : Made h sz ty s s' o n) (hty : ty + 1 ∈ s.live)
    (hlen : grown n.length + umdsSz < wordMod) :
    (objectAppendWord h s' o v = some (s', 0) ∧ NoRoom h sz s' (grown n.length)) ∨
      ∃ s'' r, objectAppendWord h s' o v = some (s'', r) ∧ Made h sz ty s s'' r (n ++ [v]) ∧
        ∀ x, Room h sz s' (x + need (grown n.length) + minAllocSz) → Room h sz s'' x := by
  have hbounds := hm.sound.bounds hm.mem
  by_cases hroom : n.length + 4 ≤ getMemSz s'.mem (o + 1)
  · obtain ⟨s'', h1, h2, -, h3⟩ := append_within v hm hty hroom
    exact .inr ⟨s'', o, h1, h2, fun x hx => h3 x (hx.mono (by omega))⟩
  have hreq : wadd (wadd (wadd objSz n.length) (n.length / 2)) 1 = grown n.length := by
    unfold grown umdsSz at hlen
    unfold objSz grown
    rw [wadd_eq (x := 4) (by omega), wadd_eq (x := 4 + n.length) (by omega), wadd_eq (by omega)]
    omega
  have ho0 : o ≠ 0 := by omega
  have hfull := (append_full_iff hm.sound hm.num).mpr hroom
  rcases hm.moved hty hlen (by unfold grown; omega) with ⟨hno, h1⟩ | ⟨s₁, r, h1, h2, h3, h4⟩
  · refine .inl ⟨?_, hno⟩
    rw [objectAppendWord, if_neg ho0]
    dsimp only
    rw [if_pos hfull, hm.num.size, hreq, h1]
    rfl
  · obtain ⟨s'', h5, h6, -, h7⟩ := append_within v h2 hty (by unfold grown at h3; omega)
    refine .inr ⟨s'', r, ?_, h6, fun x hx => h7 x (h4 x hx)⟩
    have hr0 : r ≠ 0 := by
      have := h2.sound.bounds h2.mem
      omega
    have hroom₁ : ¬ wsub (s₁.mem r) objSz ≤ s₁.mem (size r) := by
      rw [append_full_iff h2.sound h2.num]
      unfold grown at h3
      omega
    rw [← h5, objectAppendWord, objectAppendWord, if_neg ho0, if_neg hr0]
    dsimp only
    rw [if_pos hfull, if_neg hroom₁, hm.num.size, hreq, h1, Option.map_some]
    rfl

/-! ### Trimming -/

lemma word_set_size (s : HSt) (a v i : ℕ) : word (s.set (size a) v) a i = word s a i := by
  rw [word, word, mem_set, if_neg (by unfold contents size; omega)]

/-- The loop sets the size, and nothing else. -/
lemma trimWords_apply (p : ℕ → Bool) (hsz : s.mem (size a) = i + 1) (hi : i + 1 < wordMod) :
    (trimWords p a i s).live = s.live ∧ ∀ y, (trimWords p a i s).mem y =
      if y = size a then trimLoop p (word s a) i + 1 else s.mem y := by
  induction i using Nat.strong_induction_on generalizing s with
  | _ i ih =>
    match i with
    | 0 => exact ⟨rfl, fun y => by split_ifs with hy <;> simp [trimWords, trimLoop, hy, hsz]⟩
    | 1 => exact ⟨rfl, fun y => by split_ifs with hy <;> simp [trimWords, trimLoop, hy, hsz]⟩
    | i + 2 =>
      rw [trimWords, trimLoop]
      by_cases hp : p (word s a (i + 1)) = true
      · rw [if_pos hp, if_pos hp, hsz, wsub_eq (by omega) hi]
        have hw : word (s.set (size a) (i + 2 + 1 - 1)) a = word s a :=
          funext (word_set_size s a _)
        obtain ⟨h1, h2⟩ := ih (i + 1) (by omega) (s := s.set (size a) (i + 2 + 1 - 1))
          (by rw [mem_set, if_pos rfl]; omega) (by omega)
        refine ⟨h1, fun y => ?_⟩
        rw [h2, hw, mem_set]
        split_ifs <;> rfl
      · rw [if_neg hp, if_neg hp]
        refine ⟨rfl, fun y => ?_⟩
        split_ifs with hy
        · rw [hy, hsz]
        · rfl

lemma trimLoop_congr {p : ℕ → Bool} {f g : ℕ → ℕ} (h : ∀ j < i, f j = g j) :
    trimLoop p f i = trimLoop p g i := by
  induction i using Nat.strong_induction_on with
  | _ i ih =>
    match i with
    | 0 => rfl
    | 1 => rfl
    | i + 2 =>
      rw [trimLoop, trimLoop, h (i + 1) (by omega),
        ih (i + 1) (by omega) fun j hj => h j (by omega)]

lemma NumAt.length_lt (hs : Sound h sz s) (hn : NumAt s a n) : n.length + 5 < wordMod := by
  have h1 := hs.bounds hn.live
  have h2 := hn.fits
  have h3 : addrSpace < wordMod := by decide
  omega

/-- The size of a number is set to that of a part of it. -/
lemma NumAt.take (hs : Sound h sz s) (hn : NumAt s a n) (hk : k ≤ n.length) :
    Wrote h sz (Payload a) s (s.set (Object.size a) k) ∧
      NumAt (s.set (Object.size a) k) a (n.take k) := by
  have hfits := hn.fits
  have hlen : (n.take k).length = k := List.length_take_of_le hk
  have hw : Wrote h sz (Payload a) s (s.set (Object.size a) k) :=
    (Wrote.refl hs).set (a := a + 1) (i := 2) k hn.live (by omega) ⟨rfl, le_rfl⟩
  refine ⟨hw, hn.live, by rw [mem_set, if_pos rfl, hlen], ?_, ?_⟩
  · rw [hw.memSz _ hn.live, hlen]
    omega
  · rw [hlen]
    refine List.ext_getElem (by simp [hlen]) fun i h1 h2 => ?_
    have hi : i < k := by simpa using h1
    rw [← List.getD_eq_getElem _ 0 h1, getD_readAll _ hi, mem_set,
      if_neg (by unfold contents Object.size; omega), List.getElem_take,
      ← List.getD_eq_getElem _ 0 (by omega), ← hn.word (by omega)]
    rfl

/-- The loop that trims a number object. -/
lemma trimWords_spec (p : ℕ → Bool) (hs : Sound h sz s) (hn : NumAt s a n) (h0 : n ≠ []) :
    Wrote h sz (Payload a) s (trimWords p a (n.length - 1) s) ∧
      NumAt (trimWords p a (n.length - 1) s) a (trim p n) := by
  have hpos := List.length_pos_iff.mpr h0
  have hlt := hn.length_lt hs
  obtain ⟨h1, h2⟩ := trimWords_apply (s := s) (a := a) (i := n.length - 1) p
    (by rw [hn.size]; omega) (by omega)
  have hloop : trimLoop p (word s a) (n.length - 1) =
      trimLoop p (fun i => n.getD i 0) (n.length - 1) :=
    trimLoop_congr fun j hj => hn.word (by omega)
  rw [hloop] at h2
  have heq : trimWords p a (n.length - 1) s = s.set (Object.size a)
      (trimLoop p (fun i => n.getD i 0) (n.length - 1) + 1) := by
    have hmem := funext h2
    rw [show trimWords p a (n.length - 1) s = ⟨(trimWords p a (n.length - 1) s).mem,
      (trimWords p a (n.length - 1) s).live⟩ from rfl, h1, hmem, HSt.set]
    refine congrArg (HSt.mk · s.live) (funext fun y => ?_)
    exact (set_apply _ _ _ _).symm
  rw [heq, trim]
  exact hn.take hs (by have := (trimLoop_spec p (fun i => n.getD i 0) (n.length - 1)).1; omega)

/-! ### A heap with objects -/

lemma fresh_sound {c r : ℕ} (hf : Fresh h sz c s r) : Sound h sz s := by
  obtain ⟨-, t, U, hi, -⟩ := hf
  exact ⟨[], t, U, hi⟩

lemma fresh_putAll {c r : ℕ} (hf : Fresh h sz c s r) (ha : a ∈ s.live)
    (hi : i + ws.length ≤ getMemSz s.mem a) : Fresh h sz c (putAll s (a + i) ws) r := by
  induction ws generalizing s i with
  | nil => exact hf
  | cons w ws ih =>
    rw [List.length_cons] at hi
    obtain ⟨h1, h2⟩ := hf.write (x := a + i) w ha (by omega)
    exact ih h1 ha (i := i + 1) (by rw [h2.memSz a ha]; omega)

/-- There is room in a heap that is not full. -/
lemma not_noRoom {c r : ℕ} (hf : Fresh h sz c s r) (hr : 2000 ≤ r) (hk : k ≤ 1000) :
    ¬ NoRoom h sz s k := by
  rintro ⟨lost, t, U, hi, hfull⟩
  have hk' : k + umdsSz < wordMod := by
    unfold umdsSz wordMod
    omega
  obtain ⟨s₁, a, h1, h2⟩ := alloc_meets hi hk'
  obtain rfl := h2.null.mpr hfull
  rcases hf.alloc hk' with ⟨-, h3⟩ | ⟨s₂, a, h3, h4, -⟩
  · unfold need umdsSz minAllocSz at h3
    omega
  · exact h4 (Prod.mk.inj (Option.some.inj (h3.symm.trans h1))).2

/-- `k` objects for 61 words each, in a heap of a megabyte. -/
lemma exists_objects_at (h0 : h ≠ 0) (hroom : h + 2 ^ 17 < addrSpace) (k : ℕ) (hk : k ≤ 20) :
    ∃ (s : HSt) (c : ℕ) (os : List ℕ), Fresh h (2 ^ 17) c s (2 ^ 17 - 145 - 72 * k) ∧
      os.length = k ∧ os.Nodup ∧ ∀ o ∈ os, o + 1 ∈ s.live ∧ 64 ≤ getMemSz s.mem (o + 1) := by
  induction k with
  | zero =>
    obtain ⟨s, c, -, h1⟩ := exists_init h0 hroom (by decide) fun _ => True
    exact ⟨s, c, [], h1, rfl, List.nodup_nil, by simp⟩
  | succ k ih =>
    obtain ⟨s, c, os, hf, hlen, hnd, hos⟩ := ih (by omega)
    have hneed : need 64 + minAllocSz = 69 := rfl
    rcases hf.alloc (n := 64) (by decide) with ⟨-, h1⟩ | ⟨s', a, h1, h2, h3, h4, -⟩
    · omega
    obtain ⟨hs', hx, -, hsz⟩ := alloc_ext (fresh_sound hf) (by decide) h1 h2
    obtain ⟨o, rfl⟩ : ∃ o, a = o + 1 := ⟨a - 1, by omega⟩
    have hnd' := hs'.nodup
    rw [h4, List.nodup_cons] at hnd'
    refine ⟨s', c, o :: os, ?_, by rw [List.length_cons, hlen], ?_, ?_⟩
    · obtain ⟨h5, t, U, h6, h7⟩ := h3
      exact ⟨h5, t, U, h6, h7.imp (fun h8 => by omega) fun ⟨x, v, h8, h9⟩ => ⟨x, v, h8, by omega⟩⟩
    · exact List.nodup_cons.mpr ⟨fun ho => hnd'.1 (hos o ho).1, hnd⟩
    · intro o' ho'
      rcases List.mem_cons.mp ho' with rfl | ho'
      · exact ⟨by rw [h4]; exact List.mem_cons_self, hsz⟩
      · obtain ⟨h5, h6⟩ := hos o' ho'
        have h7 := hx _ h5 0 (by omega) id
        exact ⟨h7.live, by rw [h7.memSz]; exact h6⟩

/-- Such objects at the address `8`. -/
lemma exists_objects (k : ℕ) (hk : k ≤ 20) : ∃ (s : HSt) (c : ℕ) (os : List ℕ),
    Fresh 1 (2 ^ 17) c s (2 ^ 17 - 145 - 72 * k) ∧ os.length = k ∧ os.Nodup ∧
      ∀ o ∈ os, o + 1 ∈ s.live ∧ 64 ≤ getMemSz s.mem (o + 1) :=
  exists_objects_at (by decide) (by decide) k hk

/-- The objects get one reference and a number each. -/
lemma fill_all {c r : ℕ} {os : List ℕ} (ns : List (List ℕ)) (hf : Fresh h sz c s r)
    (hnd : os.Nodup) (hos : ∀ o ∈ os, o + 1 ∈ s.live ∧ 64 ≤ getMemSz s.mem (o + 1))
    (hlen : ns.length = os.length) (hns : ∀ n ∈ ns, n.length ≤ 61) :
    ∃ s', Fresh h sz c s' r ∧ Wrote h sz (fun c _ => ∃ o ∈ os, c = o + 1) s s' ∧
      (∀ p ∈ os.zip ns, NumAt s' p.1 p.2) ∧ ∀ o ∈ os, s'.mem (refcount o) = 1 := by
  induction os generalizing ns with
  | nil =>
    obtain rfl := List.length_eq_zero_iff.mp hlen
    exact ⟨s, hf, .refl (fresh_sound hf), by simp, by simp⟩
  | cons o os ih =>
    obtain ⟨n, ns, rfl⟩ := List.exists_cons_of_length_eq_add_one hlen
    obtain ⟨hnot, hnd'⟩ := List.nodup_cons.mp hnd
    obtain ⟨s₁, hf₁, w₁, h1, h2⟩ := ih ns hnd' (fun o' ho' => hos o' (List.mem_cons_of_mem _ ho'))
      (by simpa using hlen) fun n' hn' => hns n' (List.mem_cons_of_mem _ hn')
    obtain ⟨ho, hroom⟩ := hos o List.mem_cons_self
    have ho₁ : o + 1 ∈ s₁.live := w₁.live ▸ ho
    have hroom₁ : 64 ≤ getMemSz s₁.mem (o + 1) := by rwa [w₁.memSz _ ho]
    have hlen' := hns n List.mem_cons_self
    have w₂ : Wrote h sz (fun c _ => c = o + 1) s₁ (s₁.set (refcount o) 1) :=
      (Wrote.refl w₁.sound).set (a := o + 1) (i := 0) 1 ho₁ (by omega) rfl
    obtain ⟨w₃, h3⟩ := fill_spec n w₂.sound (w₂.live ▸ ho₁)
      (by rw [w₂.memSz _ ho₁]; omega)
    obtain ⟨hf₂, hsame₂⟩ := hf₁.field 0 1 ho₁ (by omega)
    obtain ⟨hf₃, hsame₃⟩ := hf₂.field 2 n.length ho₁ (by omega)
    have hf₄ : Fresh h sz c (putAll _ (contents o 0) n) r := fresh_putAll (i := 3) hf₃ ho₁
      (by rw [(hsame₂.trans hsame₃).memSz _ ho₁]; omega)
    have w := w₂.trans (w₃.mono fun c i hc => hc.1)
    have hne : ∀ o' ∈ os, o' + 1 ≠ o + 1 := fun o' ho' heq =>
      hnot (Nat.succ_injective heq ▸ ho')
    refine ⟨_, hf₄, (w₁.mono fun c i ⟨o', ho', hc⟩ => ⟨o', List.mem_cons_of_mem _ ho', hc⟩).trans
      (w.mono fun c i hc => ⟨o, List.mem_cons_self, hc⟩), ?_, ?_⟩
    · intro p hp
      rcases List.mem_cons.mp hp with rfl | hp
      · exact h3
      · have hp' := (List.of_mem_zip hp).1
        exact (h1 p hp).ext w.ext (hne _ hp') fun _ _ => hne _ hp'
    · intro o' ho'
      rcases List.mem_cons.mp ho' with rfl | ho'
      · have h4 := w₃.ext _ (w₂.live ▸ ho₁) 0 (by rw [w₂.memSz _ ho₁]; omega)
          (by unfold Payload; omega)
        exact h4.word.trans (by rw [refcount, mem_set, if_pos rfl])
      · obtain ⟨h4, h5⟩ := hos o' (List.mem_cons_of_mem _ ho')
        have h6 := w.ext _ (w₁.live ▸ h4) 0 (by rw [w₁.memSz _ h4]; omega) (hne _ ho')
        exact h6.word.trans (h2 o' ho')

/-- A heap with a type and two numbers, and with room for more. -/
lemma exists_numbers_at (h0 : h ≠ 0) (hroom : h + 2 ^ 17 < addrSpace) (n₁ n₂ : List ℕ)
    (h₁ : n₁.length ≤ 61) (h₂ : n₂.length ≤ 61) :
    ∃ s ty a b, Sound h (2 ^ 17) s ∧ ty + 1 ∈ s.live ∧ s.mem (refcount ty) = 1 ∧ a ≠ b ∧
      NumAt s a n₁ ∧ NumAt s b n₂ ∧ ∀ k ≤ 1000, ¬ NoRoom h (2 ^ 17) s k := by
  obtain ⟨s, c, os, hf, hlen, hnd, hos⟩ := exists_objects_at h0 hroom 3 (by decide)
  obtain ⟨ty, a, b, rfl⟩ := List.length_eq_three.mp hlen
  obtain ⟨s', hf', w, h3, h4⟩ := fill_all [[], n₁, n₂] hf hnd hos rfl (by simp [h₁, h₂])
  refine ⟨s', ty, a, b, w.sound, w.live ▸ (hos ty (by simp)).1, h4 ty (by simp), ?_,
    h3 (a, n₁) (by simp), h3 (b, n₂) (by simp), fun k hk => not_noRoom hf' (by omega) hk⟩
  rintro rfl
  simp at hnd

/-- Such a heap at the address `8`. -/
lemma exists_numbers (n₁ n₂ : List ℕ) (h₁ : n₁.length ≤ 61) (h₂ : n₂.length ≤ 61) :
    ∃ s ty a b, Sound 1 (2 ^ 17) s ∧ ty + 1 ∈ s.live ∧ s.mem (refcount ty) = 1 ∧ a ≠ b ∧
      NumAt s a n₁ ∧ NumAt s b n₂ ∧ ∀ k ≤ 1000, ¬ NoRoom 1 (2 ^ 17) s k :=
  exists_numbers_at (by decide) (by decide) n₁ n₂ h₁ h₂

end LispMachine.NumObj
