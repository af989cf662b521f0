import LispMachine.NumObjMul
import LispMachine.NumShift

/-!
Shifts of number objects.

The contents of an object are a function on the indices, and each loop computes the function that
its counterpart on the words computes. The log of the indices tells which words a shift to the left
writes: all those below a bound.
-/

namespace LispMachine.NumObjShift

open LispMachine.Memory LispMachine.Alloc LispMachine.Heap LispMachine.HeapFrame
open LispMachine.HeapInv LispMachine.HeapRuns LispMachine.Object LispMachine.NumHeap
open LispMachine.NumObj
open LispMachine.Bignum (ones last trimLoop trimZeroes shiftLeftLoop moveUpLoop shiftRightLoop
  moveDownLoop words)
open LispMachine.BignumWf LispMachine.NumStr LispMachine.NumVal LispMachine.NumShift
open LispMachine.NumObjMul (NumAt.unique)

variable {h sz ty : ℕ} {s s' : HSt} {w : Written} {a b c div i j k mod o r sgn shf v x y : ℕ}
  {n n₁ n₂ : List ℕ}

/-! ### The contents as a function -/

@[simp] lemma word_setWord (s : HSt) (o i v : ℕ) :
    word (setWord s o i v) o = Function.update (word s o) i v := by
  funext j
  rw [word, setWord, mem_set, Function.update_apply]
  unfold contents
  split_ifs <;> first | rfl | omega

lemma size_setWord (s : HSt) (o i v : ℕ) : (setWord s o i v).mem (size o) = s.mem (size o) := by
  rw [setWord, mem_set, if_neg (by unfold contents size; omega)]

lemma word_put : word (put o w i v).1 o = Function.update (word w.1 o) i v := word_setWord ..

lemma size_put : (put o w i v).1.mem (size o) = w.1.mem (size o) := size_setWord ..

/-- An object is a number by its contents and its size. -/
lemma numAt_object (hlive : o + 1 ∈ s.live) (hsize : s.mem (size o) = k)
    (hfits : k + 3 ≤ getMemSz s.mem (o + 1)) : NumAt s o (Bignum.object (word s o) k) := by
  refine ⟨hlive, hsize.trans length_object.symm, by rwa [length_object], ?_⟩
  rw [length_object]
  exact List.map_congr_left fun i _ => congrArg s.mem (by unfold contents; omega)

lemma numAt_of_wrote (hw : Wrote h sz (Payload o) s s') (ho : o + 1 ∈ s.live)
    (hsize : s'.mem (size o) = k) (hfits : k + 3 ≤ getMemSz s.mem (o + 1)) :
    NumAt s' o (Bignum.object (word s' o) k) :=
  numAt_object (hw.live ▸ ho) hsize (by rwa [hw.memSz _ ho])

lemma object_congr {f g : ℕ → ℕ} (hfg : ∀ i < k, f i = g i) :
    Bignum.object f k = Bignum.object g k :=
  List.map_congr_left fun i hi => hfg i (List.mem_range.mp hi)

lemma object_word (hn : NumAt s a n) : Bignum.object (word s a) n.length = n := by
  rw [object_congr fun i hi => (hn.word hi).trans (if_pos hi).symm]
  exact @object_words n fun _ => 0

/-! ### The log -/

/-- The state comes from `s` by writes to the size of the object and to the content words of the
log. -/
structure Puts (o : ℕ) (s : HSt) (w : Written) : Prop where
  live : w.1.live = s.live
  out : ∀ y, y ≠ size o → (∀ i ∈ w.2, y ≠ contents o i) → w.1.mem y = s.mem y

lemma Puts.put (hp : Puts o s w) (i v : ℕ) : Puts o s (put o w i v) := by
  refine ⟨hp.live, fun y hy hlog => ?_⟩
  rw [NumHeap.put, setWord, mem_set, if_neg (hlog i List.mem_cons_self)]
  exact hp.out y hy fun j hj => hlog j (List.mem_cons_of_mem _ hj)

lemma Puts.shiftLeftWords (hp : Puts o s w) : Puts o s (shiftLeftWords o div mod k w) := by
  induction k generalizing w with
  | zero => exact hp
  | succ k ih => exact ih (hp.put _ _)

lemma Puts.moveUpWords (hp : Puts o s w) : Puts o s (moveUpWords o div k w) := by
  induction k generalizing w with
  | zero => exact hp
  | succ k ih => exact ih (hp.put _ _)

lemma Puts.clearLow (hp : Puts o s w) : Puts o s (clearLow o k i w) := by
  induction k generalizing i w with
  | zero => exact hp
  | succ k ih => exact ih (hp.put _ _)

lemma mem_shiftLeftWords : j ∈ (shiftLeftWords o div mod k w).2 ↔
    j ∈ w.2 ∨ div < j ∧ j ≤ k + div := by
  induction k generalizing w with
  | zero => exact ⟨.inl, fun hj => hj.resolve_right (by omega)⟩
  | succ k ih =>
    rw [shiftLeftWords, ih, put, List.mem_cons, or_comm (a := j = _), or_assoc]
    exact or_congr_right (by omega)

lemma mem_moveUpWords : j ∈ (moveUpWords o div k w).2 ↔ j ∈ w.2 ∨ div ≤ j ∧ j < k + div := by
  induction k generalizing w with
  | zero => exact ⟨.inl, fun hj => hj.resolve_right (by omega)⟩
  | succ k ih =>
    rw [moveUpWords, ih, put, List.mem_cons, or_comm (a := j = _), or_assoc]
    exact or_congr_right (by omega)

lemma mem_clearLow : j ∈ (clearLow o k i w).2 ↔ j ∈ w.2 ∨ i ≤ j ∧ j < i + k := by
  induction k generalizing i w with
  | zero => exact ⟨.inl, fun hj => hj.resolve_right (by omega)⟩
  | succ k ih =>
    rw [clearLow, ih, put, List.mem_cons, or_comm (a := j = _), or_assoc]
    exact or_congr_right (by omega)

/-! ### The loops -/

lemma word_shiftLeftWords : word (shiftLeftWords o div mod k w).1 o =
    shiftLeftLoop div mod k (word w.1 o) := by
  induction k generalizing w with
  | zero => rfl
  | succ k ih => rw [shiftLeftWords, ih, word_put, shiftLeftLoop]

lemma word_moveUpWords : word (moveUpWords o div k w).1 o = moveUpLoop div k (word w.1 o) := by
  induction k generalizing w with
  | zero => rfl
  | succ k ih => rw [moveUpWords, ih, word_put, moveUpLoop]

lemma word_clearLow : word (clearLow o k i w).1 o j =
    if i ≤ j ∧ j < i + k then 0 else word w.1 o j := by
  induction k generalizing i w with
  | zero => rw [if_neg (by omega), clearLow]
  | succ k ih =>
    rw [clearLow, ih, word_put, Function.update_apply]
    split_ifs <;> first | rfl | omega

lemma word_shiftRightWords : word (shiftRightWords o div mod k i s) o =
    shiftRightLoop div mod k i (word s o) := by
  induction k generalizing i s with
  | zero => rfl
  | succ k ih => rw [shiftRightWords, ih, word_setWord, shiftRightLoop]

lemma word_moveDownWords : word (moveDownWords o div k i s) o =
    moveDownLoop div k i (word s o) := by
  induction k generalizing i s with
  | zero => rfl
  | succ k ih => rw [moveDownWords, ih, word_setWord, moveDownLoop]

/-! ### The sizes -/

lemma size_shiftLeftWords : (shiftLeftWords o div mod k w).1.mem (size o) = w.1.mem (size o) := by
  induction k generalizing w with
  | zero => rfl
  | succ k ih => rw [shiftLeftWords, ih, size_put]

lemma size_moveUpWords : (moveUpWords o div k w).1.mem (size o) = w.1.mem (size o) := by
  induction k generalizing w with
  | zero => rfl
  | succ k ih => rw [moveUpWords, ih, size_put]

lemma size_clearLow : (clearLow o k i w).1.mem (size o) = w.1.mem (size o) := by
  induction k generalizing i w with
  | zero => rfl
  | succ k ih => rw [clearLow, ih, size_put]

/-- Only the size changes. -/
lemma trimZeroWords_apply (hsz : s.mem (size o) = k + 1) (hk : k + 1 < wordMod) :
    (trimZeroWords o s).live = s.live ∧ ∀ y, (trimZeroWords o s).mem y =
      if y = size o then trimZeroes (word s o) (k + 1) else s.mem y := by
  obtain ⟨h1, h2⟩ := trimWords_apply (s := s) (a := o) (i := k) (fun w => decide (w = 0)) hsz hk
  have hword : word (trimWords (fun w => decide (w = 0)) o k s) o = word s o := by
    funext j
    rw [word, h2, if_neg (by unfold contents size; omega)]
    rfl
  have hsize := h2 (size o)
  rw [if_pos rfl] at hsize
  rw [trimZeroWords, trimZeroes, hsz, Nat.add_sub_cancel, hsize, hword]
  split_ifs with hc
  · refine ⟨h1, fun y => ?_⟩
    rw [mem_set, h2]
    split_ifs <;> rfl
  · exact ⟨h1, h2⟩

/-! ### Shifts to the left -/

/-- The number of content words below which the words are written. -/
def shiftEnd (sz sgn div mod : ℕ) : ℕ :=
  if mod ≠ 0 then sz + div + (if sgn ≠ 0 then 2 else 1) else if div ≠ 0 then sz + div else 0

/-- The words above the word `div` when words are split, the last one or two of them new. -/
def splitWords (sz sgn div mod : ℕ) (c : ℕ → ℕ) : ℕ → ℕ :=
  let c := shiftLeftLoop div mod (sz - 1) c
  let c := Function.update c div (wshl (c 0) mod)
  let c := Function.update c (sz + div) (sgn >>> (64 - mod))
  if sgn ≠ 0 then Function.update c (sz + div + 1) 0 else c

lemma shiftLeftBody_split (o sz sgn div mod : ℕ) (s : HSt) (hmod : mod ≠ 0) (hsz : 0 < sz) :
    ∃ w : Written, shiftLeftBody o sz sgn div mod s =
        clearLow o div 0 (trimZeroWords o w.1, w.2) ∧ Puts o s w ∧
      (∀ j, j ∈ w.2 ↔ div ≤ j ∧ j < sz + div + if sgn ≠ 0 then 2 else 1) ∧
      word w.1 o = splitWords sz sgn div mod (word s o) ∧
      w.1.mem (size o) =
        if sgn ≠ 0 then wadd (s.mem (size o)) 1 else s.mem (size o) := by
  have hstart : Puts o s (s, []) := ⟨rfl, fun _ _ _ => rfl⟩
  set w₁ := shiftLeftWords o div mod (sz - 1) (s, []) with hw₁
  have hword : word w₁.1 o = shiftLeftLoop div mod (sz - 1) (word s o) := word_shiftLeftWords
  have hsize : w₁.1.mem (size o) = s.mem (size o) := size_shiftLeftWords
  set w₂ := put o (put o w₁ div (wshl (word w₁.1 o 0) mod)) (sz + div) (sgn >>> (64 - mod))
    with hw₂
  have hput : Puts o s w₂ := (hstart.shiftLeftWords.put _ _).put _ _
  have hword₂ : word w₂.1 o = Function.update (Function.update (word w₁.1 o) div
      (wshl (word w₁.1 o 0) mod)) (sz + div) (sgn >>> (64 - mod)) := by
    rw [hw₂, word_put, word_put]
  have hsize₂ : w₂.1.mem (size o) = s.mem (size o) := by
    rw [hw₂, size_put, size_put, hsize]
  have hlog : ∀ j, j ∈ w₂.2 ↔ div ≤ j ∧ j < sz + div + 1 := fun j => by
    rw [hw₂, put, List.mem_cons, put, List.mem_cons, hw₁, mem_shiftLeftWords]
    simp only [List.not_mem_nil, false_or]
    omega
  rw [shiftLeftBody]
  dsimp only
  rw [if_pos hmod, splitWords, ← hword, ← hword₂]
  by_cases hsgn : sgn ≠ 0
  · simp only [if_pos hsgn]
    set w₃ := put o w₂ (sz + div + 1) 0 with hw₃
    refine ⟨(w₃.1.set (size o) (wadd (w₃.1.mem (size o)) 1), w₃.2), rfl,
      ⟨hput.live, fun y hy hy' => ?_⟩, fun j => ?_, ?_, ?_⟩
    · rw [mem_set, if_neg hy]
      exact (hput.put _ _).out y hy hy'
    · rw [hw₃, put, List.mem_cons, hlog]
      omega
    · funext j
      rw [word_set_size, hw₃, word_put]
    · rw [mem_set, if_pos rfl, hw₃, size_put, hsize₂]
  · simp only [if_neg hsgn]
    exact ⟨w₂, rfl, hput, hlog, hword₂.symm ▸ rfl, hsize₂⟩

/-- The contents before the low words are cleared, and the size. -/
def leftWords (sz sgn div mod : ℕ) (c : ℕ → ℕ) : ℕ → ℕ :=
  if mod ≠ 0 then splitWords sz sgn div mod c else moveUpLoop div sz c

def leftSize (sz sgn div mod : ℕ) (c : ℕ → ℕ) : ℕ :=
  if mod ≠ 0 then trimZeroes (splitWords sz sgn div mod c) (sz + div + if sgn ≠ 0 then 2 else 1)
  else sz + div

lemma numShiftLeft_eq (c : ℕ → ℕ) (sz shf : ℕ) : Bignum.numShiftLeft c sz shf =
    Bignum.object (fun i => if i < shf / 64 then 0
      else leftWords sz (c (sz - 1)) (shf / 64) (shf % 64) c i)
      (leftSize sz (c (sz - 1)) (shf / 64) (shf % 64) c) := by
  rw [Bignum.numShiftLeft, leftWords, leftSize]
  dsimp only
  by_cases hmod : shf % 64 ≠ 0
  · rw [if_pos hmod, if_pos hmod, if_pos hmod, splitWords]
    by_cases hsgn : c (sz - 1) ≠ 0
    · simp only [if_pos hsgn]
    · simp only [if_neg hsgn]
  · rw [if_neg hmod, if_neg hmod, if_neg hmod]

lemma shiftLeftBody_spec (sgn : ℕ) (hsz : 0 < sz) (hbound : sz + div + 3 < wordMod)
    (hsize : s.mem (size o) = sz + div + if mod ≠ 0 then 1 else 0) :
    Puts o s (shiftLeftBody o sz sgn div mod s) ∧
      (∀ j, j ∈ (shiftLeftBody o sz sgn div mod s).2 ↔ j < shiftEnd sz sgn div mod) ∧
      (∀ j, word (shiftLeftBody o sz sgn div mod s).1 o j =
        if j < div then 0 else leftWords sz sgn div mod (word s o) j) ∧
      (shiftLeftBody o sz sgn div mod s).1.mem (size o) =
        leftSize sz sgn div mod (word s o) := by
  rw [leftWords, leftSize, shiftEnd]
  by_cases hmod : mod ≠ 0
  · simp only [if_pos hmod] at hsize ⊢
    obtain ⟨w, hbody, hputs, hlog, hword, hsz'⟩ :=
      shiftLeftBody_split o sz sgn div mod s hmod hsz
    -- the size before the trimming
    have hlast : w.1.mem (size o) = sz + div + (if sgn ≠ 0 then 1 else 0) + 1 := by
      rw [hsz', hsize]
      split_ifs
      · rw [wadd_eq (by omega)]
      · rfl
    have hsum : sz + div + (if sgn ≠ 0 then 1 else 0) + 1 =
        sz + div + if sgn ≠ 0 then 2 else 1 := by split_ifs <;> rfl
    obtain ⟨h1, h2⟩ := trimZeroWords_apply hlast (by split_ifs <;> omega)
    rw [hsum, hword] at h2
    have hputs' : Puts o s (trimZeroWords o w.1, w.2) :=
      ⟨h1.trans hputs.live, fun y hy hy' => by rw [h2, if_neg hy, hputs.out y hy hy']⟩
    rw [hbody]
    refine ⟨hputs'.clearLow, fun j => ?_, fun j => ?_, ?_⟩
    · rw [mem_clearLow, hlog]
      split_ifs <;> omega
    · have hkeep : word (trimZeroWords o w.1) o j = word w.1 o j := by
        rw [word, h2, if_neg (by unfold contents size; omega), word]
      rw [word_clearLow, hkeep, hword]
      simp only [Nat.zero_le, true_and, Nat.zero_add]
    · rw [size_clearLow, h2, if_pos rfl]
  · rw [if_neg hmod] at hsize
    simp only [if_neg hmod]
    rw [shiftLeftBody]
    dsimp only
    rw [if_neg hmod]
    have hstart : Puts o s (s, []) := ⟨rfl, fun _ _ _ => rfl⟩
    by_cases hdiv : div ≠ 0
    · simp only [if_pos hdiv]
      refine ⟨hstart.moveUpWords.clearLow, fun j => ?_, fun j => ?_, ?_⟩
      · rw [mem_clearLow, mem_moveUpWords]
        simp only [List.not_mem_nil, false_or]
        omega
      · rw [word_clearLow, word_moveUpWords]
        simp
      · rw [size_clearLow, size_moveUpWords, hsize, Nat.add_zero]
    · obtain rfl : div = 0 := not_not.mp hdiv
      simp only [if_neg hdiv]
      refine ⟨hstart.clearLow, fun j => ?_, fun j => ?_, ?_⟩
      · simp [clearLow]
      · rw [word_clearLow, moveUpLoop_apply]
        simp
      · rw [size_clearLow, hsize]

/-- Writes to content words of the object's block. -/
lemma Puts.wrote (hp : Puts o s w) (hs : Sound h sz s) (ho : o + 1 ∈ s.live)
    (hin : ∀ i ∈ w.2, i + 3 < getMemSz s.mem (o + 1)) : Wrote h sz (Payload o) s w.1 := by
  have hlow := (hs.bounds ho).2.2.1
  have hsize : size o = o + 1 + 2 := rfl
  have heq : w.1 = ⟨w.1.mem, s.live⟩ := by
    rw [← hp.live]
  rw [heq]
  refine Wrote.users hs (fun x hx => hp.out x ?_ fun i hi => ?_) fun c hc i hi hn =>
    hp.out _ (fun hx => hn ?_) fun j hj hx => hn ?_
  · rw [hsize]
    exact hx _ ho 2 (by omega)
  · rw [contents_eq]
    exact hx _ ho _ (hin i hi)
  · obtain ⟨rfl, rfl⟩ := hs.word_inj hc ho hi (by omega) (hx.trans hsize)
    exact ⟨rfl, le_rfl⟩
  · obtain ⟨rfl, rfl⟩ := hs.word_inj hc ho hi (hin j hj) (hx.trans (contents_eq o j))
    exact ⟨rfl, by omega⟩

/-- The content words that the object must have for `num_shift_left` not to move it. -/
def minSize (sz shf : ℕ) : ℕ := sz + shf / 64 + if shf % 64 ≠ 0 then 2 else 0

lemma objectExpand_spec (hs : Sound h sz s) (hn : NumAt s a n) (hk : n.length ≤ k)
    (hk' : k + 5 < wordMod) :
    (NoRoom h sz s (k + 4) ∧ objectExpand h s a k = none) ∨
      ∃ s' r, objectExpand h s a k = some (s', r) ∧ Sound h sz s' ∧ r + 1 ∈ s'.live ∧
        k + 4 ≤ getMemSz s'.mem (r + 1) ∧ Ext (fun c _ => c = a + 1) s s' ∧
        ∀ c ∈ s.live, c ≠ a + 1 → c ≠ r + 1 := by
  have hreq : wadd objSz k = k + 4 := by
    rw [wadd_eq (by unfold objSz; omega), objSz, Nat.add_comm]
  have hn4 : k + 4 + umdsSz < wordMod := by
    unfold umdsSz
    omega
  rw [objectExpand]
  dsimp only
  rw [hreq, hn.size]
  obtain ⟨s₁, b, h1, h2⟩ : ∃ s₁ b, s.realloc h (a + 1) (k + 4) = some (s₁, b) ∧
      (b = 0 → NoRoom h sz s (k + 4)) := by
    obtain ⟨lost, t, U, hi⟩ := hs
    obtain ⟨s₁, b, h1, h2⟩ := realloc_meets hi hn.live hn4
    exact ⟨s₁, b, h1, fun h0 => ⟨lost, t, U, hi, h2.null.mp h0⟩⟩
  rw [h1, Option.bind_some]
  by_cases hb : b = 0
  · rw [if_pos hb]
    exact .inl ⟨h2 hb, rfl⟩
  · obtain ⟨hs₁, hx, hlive, hroom⟩ := realloc_ext hs hn.live hn4 h1 hb
    rw [if_neg hb, if_neg (by omega)]
    have hpos : b - 1 + 1 = b := by omega
    refine .inr ⟨s₁, b - 1, rfl, hs₁, ?_, ?_, hx, fun c hc hne heq => ?_⟩
    · rw [hpos, hlive]
      exact List.mem_cons_self
    · rw [hpos]
      exact hroom
    · have hnd := hs₁.nodup
      rw [hlive, List.nodup_cons, ← hpos, ← heq] at hnd
      exact hnd.1 ((List.mem_erase_of_ne hne).mpr hc)

/-- The words of an object that has room for them are shifted. -/
lemma shiftLeft_object (sgn : ℕ) (hs : Sound h sz s) (ho : o + 1 ∈ s.live) (hsz : 0 < k)
    (hbound : k + shf / 64 + 3 < wordMod) :
    ∃ w : Written, shiftLeftBody o k sgn (shf / 64) (shf % 64) (s.set (size o)
        (minSize k shf - if shf % 64 ≠ 0 then 1 else 0)) = w ∧
      (∀ j, j ∈ w.2 ↔ j < shiftEnd k sgn (shf / 64) (shf % 64)) ∧ w.1.mem o = s.mem o ∧
      (shiftEnd k sgn (shf / 64) (shf % 64) + 3 ≤ getMemSz s.mem (o + 1) →
        Wrote h sz (Payload o) s w.1) ∧
      (∀ j, word w.1 o j = if j < shf / 64 then 0
        else leftWords k sgn (shf / 64) (shf % 64) (word s o) j) ∧
      w.1.mem (size o) = leftSize k sgn (shf / 64) (shf % 64) (word s o) := by
  have hlow := (hs.bounds ho).2.2.1
  have hw₁ : Wrote h sz (Payload o) s (s.set (size o)
      (minSize k shf - if shf % 64 ≠ 0 then 1 else 0)) :=
    (Wrote.refl hs).set (a := o + 1) (i := 2) _ ho (by omega) ⟨rfl, le_rfl⟩
  have hsize : (s.set (size o) (minSize k shf - if shf % 64 ≠ 0 then 1 else 0)).mem (size o) =
      k + shf / 64 + if shf % 64 ≠ 0 then 1 else 0 := by
    rw [mem_set, if_pos rfl, minSize]
    split_ifs <;> omega
  obtain ⟨hputs, hlog, hword, hlen⟩ := shiftLeftBody_spec sgn hsz hbound hsize
  have hkeep : word (s.set (size o) (minSize k shf - if shf % 64 ≠ 0 then 1 else 0)) o =
      word s o := funext (word_set_size s o _)
  rw [hkeep] at hlen
  refine ⟨_, rfl, hlog, ?_, fun hend => ?_, fun j => by rw [hword, hkeep], hlen⟩
  · rw [hputs.out o (by unfold size; omega) fun i _ => by unfold contents; omega, mem_set,
      if_neg (by unfold size; omega)]
  · refine hw₁.trans (hputs.wrote hw₁.sound (hw₁.live ▸ ho) fun i hi => ?_)
    rw [hw₁.memSz _ ho]
    have := (hlog i).mp hi
    omega

/-- **`num_shift_left`** stays inside its object if it has to move it first, or if there are as many
content words as it writes. -/
theorem numShiftLeft_inside_iff (hs : Sound h sz s) (hn : NumAt s a n) (h0 : n ≠ [])
    (hshf : shf < wordMod) :
    (s.mem a < minSize n.length shf ∧ NoRoom h sz s (minSize n.length shf + 4) ∧
      numShiftLeft h s a shf = none) ∨
    ∃ s' r log, numShiftLeft h s a shf = some (s', r, log) ∧
      ((∀ i ∈ log, i < s'.mem r - objSz) ↔ s.mem a < minSize n.length shf ∨
        shiftEnd n.length (last n) (shf / 64) (shf % 64) ≤ s.mem a - objSz) ∧
      ((∀ i ∈ log, i < s'.mem r - objSz) → Sound h sz s' ∧ Ext (fun c _ => c = a + 1) s s') := by
  have hpos := List.length_pos_iff.mpr h0
  have hfits := hn.fits
  have hbounds := hs.bounds hn.live
  have hsp : 4 * addrSpace < wordMod := by decide
  have hmin : n.length ≤ minSize n.length shf := by
    unfold minSize
    omega
  have hend : shiftEnd n.length (last n) (shf / 64) (shf % 64) ≤ minSize n.length shf := by
    unfold shiftEnd minSize
    split_ifs <;> omega
  have hbound : n.length + shf / 64 + 3 < wordMod := by
    unfold wordMod at *
    omega
  have hbound' : minSize n.length shf + 5 < wordMod := by
    unfold minSize wordMod at *
    split_ifs <;> omega
  have hall : ∀ log : List ℕ, (∀ j, j ∈ log ↔ j < shiftEnd n.length (last n) (shf / 64)
      (shf % 64)) → ∀ c, (∀ i ∈ log, i < c) ↔
        shiftEnd n.length (last n) (shf / 64) (shf % 64) ≤ c := by
    intro log hlog c
    refine ⟨fun hin => ?_, fun hle i hi => ((hlog i).mp hi).trans_le hle⟩
    by_contra hlt
    exact lt_irrefl c (hin c ((hlog c).mpr (not_le.mp hlt)))
  rw [numShiftLeft]
  dsimp only
  rw [hn.size, hn.lastWord h0, ← minSize]
  by_cases hlt : s.mem a < minSize n.length shf
  · rw [if_pos hlt]
    rcases objectExpand_spec hs hn hmin hbound' with
      ⟨hfull, hnone⟩ | ⟨s₁, r, hexp, hs₁, hr, hroom, hx, hfresh⟩
    · exact .inl ⟨hlt, hfull, by rw [hnone]; rfl⟩
    right
    obtain ⟨w, hw, hlog, hmem, hin, -⟩ := shiftLeft_object (last n) hs₁ hr hpos hbound
    have hhead := Sound.header hs₁ hr
    have hcap : shiftEnd n.length (last n) (shf / 64) (shf % 64) ≤ w.1.mem r - objSz := by
      rw [hmem, hhead]
      unfold objSz
      omega
    refine ⟨w.1, r, w.2, by rw [hexp, Option.map_some, ← hw], ?_, fun _ => ?_⟩
    · rw [hall w.2 hlog]
      exact iff_of_true hcap (.inl hlt)
    · have hwrote := hin (by omega)
      refine ⟨hwrote.sound, fun c hc i hi hne => (hx.trans hwrote.ext) c hc i hi ?_⟩
      rintro (hca | ⟨hcr, -⟩)
      · exact hne hca
      · exact hfresh c hc hne hcr
  · rw [if_neg hlt]
    right
    obtain ⟨w, hw, hlog, hmem, hin, -⟩ := shiftLeft_object (last n) hs hn.live hpos hbound
    have hhead := Sound.header hs hn.live
    refine ⟨w.1, a, w.2, by rw [Option.map_some, ← hw], ?_, fun hcap => ?_⟩
    · rw [hall w.2 hlog, hmem]
      exact (or_iff_right hlt).symm
    · rw [hall w.2 hlog, hmem, hhead] at hcap
      unfold objSz at hcap
      have hwrote := hin (by omega)
      exact ⟨hwrote.sound, hwrote.ext.mono fun c i hc => hc.1⟩

lemma exists_block (k : ℕ) (hk : 3 ≤ k) (hk' : k ≤ 1000) (n : List ℕ) (hn : n.length + 3 ≤ k) :
    ∃ s a, Sound 1 (2 ^ 17) s ∧ NumAt s a n ∧ s.mem a = k + 1 := by
  obtain ⟨s, c, -, -, t, U, hi, hr⟩ := @exists_init 1 (2 ^ 17) (by decide) (by decide)
    (by decide) fun _ => True
  rcases hr with hr | ⟨x, v, ht, hv⟩
  · omega
  have hneed : need k = k + 1 := by
    unfold need umdsSz minAllocSz
    omega
  have hk4 : k + umdsSz < wordMod := by
    unfold umdsSz wordMod
    omega
  rcases hi.alloc hk4 with ⟨-, h2⟩ | ⟨s', p, v', l, rest, t', -, hg, hlive, hi'⟩
  · have := h2 (x, v) (by simp [ht])
    simp only at this
    omega
  have hfound := hg.found
  rw [ht] at hfound
  obtain ⟨h3, -⟩ := List.cons.inj (List.singleton_perm.mp hfound).symm
  obtain ⟨rfl, rfl⟩ := Prod.mk.inj h3
  have hl : l = k + 1 := by
    cases hg.cut with
    | part h5 hp => omega
    | all h5 hp =>
      unfold minAllocSz at h5
      omega
  have hs : Sound 1 (2 ^ 17) s' := ⟨[], t', _, hi'⟩
  have hp : p + 1 ∈ s'.live := by rw [hlive]; exact List.mem_cons_self
  have hsz : getMemSz s'.mem (p + 1) = k := by
    rw [(hi'.getMemSz_eq (p := p) (k := l) List.mem_cons_self).1, hl, Nat.add_sub_cancel]
  obtain ⟨hw, hn'⟩ := fill_spec n hs hp (by omega)
  refine ⟨_, p, hw.sound, hn', ?_⟩
  rw [Sound.header hw.sound (hw.live ▸ hp), hw.memSz _ hp, hsz]

theorem numShiftLeft_inside_iff_room : ∃ s a s' r log, NumAt s a [1, 0] ∧
    numShiftLeft 1 s a 1 = some (s', r, log) ∧ ∀ i ∈ log, i < s'.mem r - objSz := by
  obtain ⟨s, a, hs, hn, hmax⟩ := exists_block 9 (by decide) (by decide) [1, 0] (by decide)
  rcases numShiftLeft_inside_iff hs hn (by decide) (by decide : 1 < wordMod) with
    ⟨hlt, -⟩ | ⟨s', r, log, h1, h2, -⟩
  · rw [hmax] at hlt
    exact absurd hlt (by decide)
  · exact ⟨s, a, s', r, log, hn, h1, h2.mpr (.inr (by rw [hmax]; decide))⟩

/-- An object with room for two content words is shifted by one bit: the third word is written. -/
theorem numShiftLeft_outside : ∃ s a s' r log, Sound 1 (2 ^ 17) s ∧ NumAt s a [1, 0] ∧
    numShiftLeft 1 s a 1 = some (s', r, log) ∧ 2 ∈ log ∧ s'.mem r - objSz = 2 := by
  obtain ⟨s, a, hs, hn, hmax⟩ := exists_block 5 (by decide) (by decide) [1, 0] (by decide)
  obtain ⟨w, hw, hlog, hmem, -⟩ := @shiftLeft_object _ _ s 2 a 1 0 hs hn.live (by decide)
    (by decide)
  refine ⟨s, a, w.1, a, w.2, hs, hn, ?_, (hlog 2).mpr (by decide), by rw [hmem, hmax]; rfl⟩
  have hmin : ¬ s.mem a < minSize [1, 0].length 1 := by
    rw [hmax]
    decide
  rw [numShiftLeft]
  dsimp only
  rw [hn.size, hn.lastWord (by decide), ← minSize, if_neg hmin, Option.map_some, ← hw]
  rfl

/-! ### Numbers that are shifted -/

lemma trimZeroes_le (c : ℕ → ℕ) (hk : 0 < k) : trimZeroes c k ≤ k := by
  have := (trimLoop_spec (fun w => decide (w = 0)) c (k - 1)).1
  rw [trimZeroes]
  split_ifs <;> omega

lemma trimZeroes_congr {f g : ℕ → ℕ} (hk : 0 < k)
    (hfg : ∀ i < k, (f i = 0 ↔ g i = 0) ∧ (f i = ones ↔ g i = ones)) :
    trimZeroes f k = trimZeroes g k := by
  have hloop : ∀ j, j < k → trimLoop (fun w => decide (w = 0)) f j =
      trimLoop (fun w => decide (w = 0)) g j := by
    intro j
    induction j using Nat.strong_induction_on with
    | _ j ih =>
      intro hj
      match j with
      | 0 => rfl
      | 1 => rfl
      | j + 2 =>
        simp only [trimLoop, decide_eq_true_eq, (hfg (j + 1) (by omega)).1,
          ih (j + 1) (by omega) (by omega)]
  have hle := (trimLoop_spec (fun w => decide (w = 0)) g (k - 1)).1
  rw [trimZeroes, trimZeroes, hloop _ (by omega)]
  simp only [(hfg _ (by omega : trimLoop (fun w => decide (w = 0)) g (k - 1) + 1 - 1 < k)).1,
    (hfg _ (by omega : trimLoop (fun w => decide (w = 0)) g (k - 1) + 1 - 2 < k)).2]

lemma splitWords_apply (c : ℕ → ℕ) (i : ℕ) : splitWords k sgn div mod c i =
    if sgn ≠ 0 ∧ i = k + div + 1 then 0
    else if i = k + div then sgn >>> (64 - mod)
    else if i = div then wshl (c 0) mod
    else if div < i ∧ i ≤ k - 1 + div then
      c (i - div - 1) >>> (64 - mod) ||| wshl (c (i - div)) mod
    else c i := by
  have hzero : shiftLeftLoop div mod (k - 1) c 0 = c 0 := by
    rw [shiftLeftLoop_apply, if_neg (by omega)]
  have hbase : Function.update (Function.update (shiftLeftLoop div mod (k - 1) c) div
      (wshl (shiftLeftLoop div mod (k - 1) c 0) mod)) (k + div) (sgn >>> (64 - mod)) i =
      if i = k + div then sgn >>> (64 - mod)
      else if i = div then wshl (c 0) mod
      else if div < i ∧ i ≤ k - 1 + div then
        c (i - div - 1) >>> (64 - mod) ||| wshl (c (i - div)) mod
      else c i := by
    rw [Function.update_apply, Function.update_apply, hzero, shiftLeftLoop_apply]
  rw [splitWords]
  by_cases hsgn : sgn ≠ 0
  · rw [if_pos hsgn, Function.update_apply, hbase]
    simp only [hsgn, not_false_eq_true, true_and, ne_eq]
  · rw [if_neg hsgn, if_neg fun hf => hsgn hf.1, hbase]

lemma leftSize_le (sgn div mod : ℕ) (c : ℕ → ℕ) (hk : 0 < k) :
    leftSize k sgn div mod c ≤ k + div + 2 := by
  rw [leftSize]
  split_ifs with hmod hsgn
  · exact trimZeroes_le _ (by omega)
  · exact (trimZeroes_le _ (by omega)).trans (by omega)
  · omega

/-- The words behind those of a number matter only as far as the trimming looks at them. -/
lemma numShiftLeft_congr {f g : ℕ → ℕ} (hk : 0 < k) (hfg : ∀ i < k, f i = g i)
    (htest : ∀ i, (f i = 0 ↔ g i = 0) ∧ (f i = ones ↔ g i = ones)) :
    Bignum.numShiftLeft f k shf = Bignum.numShiftLeft g k shf := by
  rw [numShiftLeft_eq, numShiftLeft_eq, hfg (k - 1) (by omega), leftWords, leftWords, leftSize,
    leftSize]
  generalize g (k - 1) = sgn
  generalize shf / 64 = d
  generalize shf % 64 = m
  by_cases hmod : m ≠ 0
  · have hsplit : ∀ i, d ≤ i → i < k + d + (if sgn ≠ 0 then 2 else 1) →
        splitWords k sgn d m f i = splitWords k sgn d m g i := by
      intro i hlo hhi
      rw [splitWords_apply, splitWords_apply, hfg 0 hk]
      split_ifs with h1 h2 h3 h4
      · rfl
      · rfl
      · rfl
      · rw [hfg _ (by omega), hfg _ (by omega)]
      · split_ifs at hhi <;> omega
    have hlow : ∀ c : ℕ → ℕ, ∀ i < d, splitWords k sgn d m c i = c i := fun c i hi => by
      rw [splitWords_apply, if_neg (by omega), if_neg (by omega), if_neg (by omega),
        if_neg (by omega)]
    simp only [if_pos hmod]
    have hsize := trimZeroes_congr (f := splitWords k sgn d m f) (g := splitWords k sgn d m g)
      (k := k + d + if sgn ≠ 0 then 2 else 1) (by split_ifs <;> omega) fun i hi => by
        by_cases hd : i < d
        · rw [hlow f i hd, hlow g i hd]
          exact htest i
        · rw [hsplit i (by omega) hi]
          exact ⟨Iff.rfl, Iff.rfl⟩
    have hle := trimZeroes_le (splitWords k sgn d m g)
      (by split_ifs <;> omega : 0 < k + d + if sgn ≠ 0 then 2 else 1)
    rw [hsize]
    refine object_congr fun i hi => ?_
    by_cases hd : i < d
    · rw [if_pos hd, if_pos hd]
    · rw [if_neg hd, if_neg hd, hsplit i (by omega) (by omega)]
  · simp only [if_neg hmod]
    refine object_congr fun i hi => ?_
    by_cases hd : i < d
    · rw [if_pos hd, if_pos hd]
    · rw [if_neg hd, if_neg hd, moveUpLoop_apply, moveUpLoop_apply, if_pos (by omega),
        if_pos (by omega), hfg _ (by omega)]

lemma moveDownLoop_apply (div k i j : ℕ) (c : ℕ → ℕ) : moveDownLoop div k i c j =
    if i ≤ j ∧ j < i + k then c (j + div) else c j := by
  induction k generalizing c i with
  | zero => rw [if_neg (by omega), moveDownLoop]
  | succ k ih =>
    rw [moveDownLoop, ih]
    by_cases hj : i + 1 ≤ j ∧ j < i + 1 + k
    · rw [if_pos hj, if_pos (by omega), Function.update_of_ne (by omega)]
    · rw [if_neg hj, Function.update_apply]
      split_ifs <;> first | omega | rfl | (congr 1; omega)

lemma numShiftRight_congr {f g : ℕ → ℕ} (hk : 0 < k) (hfg : ∀ i < k, f i = g i) :
    Bignum.numShiftRight f k shf = Bignum.numShiftRight g k shf := by
  rw [Bignum.numShiftRight, Bignum.numShiftRight, hfg (k - 1) (by omega)]
  dsimp only
  by_cases hall : k * 64 ≤ shf
  · rw [if_pos hall, if_pos hall]
  rw [if_neg hall, if_neg hall]
  generalize hd : shf / 64 = d
  have hlt : d < k := by omega
  by_cases hmod : shf % 64 ≠ 0
  · rw [if_pos hmod, if_pos hmod]
    have hbase : ∀ i < k - d, Function.update (shiftRightLoop d (shf % 64) (k - d - 1) 0 f)
        (k - d - 1) (g (k - 1) >>> (shf % 64)) i =
        Function.update (shiftRightLoop d (shf % 64) (k - d - 1) 0 g)
        (k - d - 1) (g (k - 1) >>> (shf % 64)) i := by
      intro i hi
      rw [Function.update_apply, Function.update_apply, shiftRightLoop_apply,
        shiftRightLoop_apply]
      by_cases h1 : i = k - d - 1
      · rw [if_pos h1, if_pos h1]
      · rw [if_neg h1, if_neg h1, if_pos (by omega), if_pos (by omega), hfg _ (by omega),
          hfg _ (by omega)]
    generalize Function.update (shiftRightLoop d (shf % 64) (k - d - 1) 0 f) (k - d - 1)
      (g (k - 1) >>> (shf % 64)) = f' at hbase ⊢
    generalize Function.update (shiftRightLoop d (shf % 64) (k - d - 1) 0 g) (k - d - 1)
      (g (k - 1) >>> (shf % 64)) = g' at hbase ⊢
    have hobj : ∀ {j f' g'}, 0 < j → (∀ i < j, f' i = g' i) →
        Bignum.object f' (trimZeroes f' j) = Bignum.object g' (trimZeroes g' j) := by
      intro j f' g' hj hfg'
      rw [trimZeroes_congr hj fun i hi => by rw [hfg' i hi]; exact ⟨.rfl, .rfl⟩]
      exact object_congr fun i hi => hfg' i (hi.trans_le (trimZeroes_le g' hj))
    by_cases happ : g (k - 1) ≠ 0 ∨ k - 1 ≤ d
    · simp only [if_pos happ]
      refine hobj (by omega) fun i hi => ?_
      rw [Function.update_apply, Function.update_apply]
      split_ifs with h1
      · rfl
      · exact hbase i (by omega)
    · simp only [if_neg happ]
      exact hobj (by omega) hbase
  rw [if_neg hmod, if_neg hmod]
  by_cases hdiv : d ≠ 0
  · rw [if_pos hdiv, if_pos hdiv]
    refine object_congr fun i hi => ?_
    rw [moveDownLoop_apply, moveDownLoop_apply, if_pos (by omega), if_pos (by omega),
      hfg _ (by omega)]
  · rw [if_neg hdiv, if_neg hdiv]
    exact object_congr hfg

/-- One content word is written. -/
lemma setWord_spec (i v : ℕ) (hs : Sound h sz s) (ho : o + 1 ∈ s.live)
    (hi : i + 3 < getMemSz s.mem (o + 1)) : Wrote h sz (Payload o) s (setWord s o i v) ∧
      (setWord s o i v).mem (size o) = s.mem (size o) := by
  refine ⟨?_, size_setWord ..⟩
  rw [setWord, contents_eq]
  exact (Wrote.refl hs).set v ho hi ⟨rfl, by omega⟩

lemma setSize_spec (v : ℕ) (hs : Sound h sz s) (ho : o + 1 ∈ s.live) :
    Wrote h sz (Payload o) s (s.set (size o) v) :=
  (Wrote.refl hs).set (a := o + 1) (i := 2) v ho (by have := (hs.bounds ho).2.2.1; omega)
    ⟨rfl, le_rfl⟩

lemma shiftRightWords_wrote (div mod : ℕ) (hs : Sound h sz s) (ho : o + 1 ∈ s.live)
    (hk : i + k + 3 ≤ getMemSz s.mem (o + 1)) :
    Wrote h sz (Payload o) s (shiftRightWords o div mod k i s) ∧
      (shiftRightWords o div mod k i s).mem (size o) = s.mem (size o) := by
  induction k generalizing i s with
  | zero => exact ⟨.refl hs, rfl⟩
  | succ k ih =>
    obtain ⟨w₁, h1⟩ := setWord_spec i (word s o (i + div) >>> mod |||
      wshl (word s o (i + div + 1)) (64 - mod)) hs ho (by omega)
    obtain ⟨w₂, h2⟩ := ih w₁.sound (w₁.live ▸ ho) (i := i + 1) (by rw [w₁.memSz _ ho]; omega)
    exact ⟨w₁.trans w₂, h2.trans h1⟩

lemma moveDownWords_wrote (div : ℕ) (hs : Sound h sz s) (ho : o + 1 ∈ s.live)
    (hk : i + k + 3 ≤ getMemSz s.mem (o + 1)) :
    Wrote h sz (Payload o) s (moveDownWords o div k i s) ∧
      (moveDownWords o div k i s).mem (size o) = s.mem (size o) := by
  induction k generalizing i s with
  | zero => exact ⟨.refl hs, rfl⟩
  | succ k ih =>
    obtain ⟨w₁, h1⟩ := setWord_spec i (word s o (i + div)) hs ho (by omega)
    obtain ⟨w₂, h2⟩ := ih w₁.sound (w₁.live ▸ ho) (i := i + 1) (by rw [w₁.memSz _ ho]; omega)
    exact ⟨w₁.trans w₂, h2.trans h1⟩

/-- Zeroes are trimmed from an object whose contents are those of `c`. -/
lemma trimZeroWords_spec {c : ℕ → ℕ} (hs : Sound h sz s) (hn : NumAt s o (Bignum.object c k))
    (hk : 0 < k) : Wrote h sz (Payload o) s (trimZeroWords o s) ∧
      NumAt (trimZeroWords o s) o (Bignum.object c (trimZeroes c k)) := by
  have hlen := hn.length_lt hs
  rw [length_object] at hlen
  have hsize := hn.size
  rw [length_object] at hsize
  have hword : ∀ i < k, word s o i = c i := fun i hi => by
    rw [hn.word (by rwa [length_object]), getD_object hi]
  obtain ⟨h1, h2⟩ := trimZeroWords_apply (k := k - 1) (s := s) (o := o) (by rw [hsize]; omega)
    (by omega)
  rw [Nat.sub_add_cancel hk, trimZeroes_congr hk fun i hi => by
    rw [hword i hi]
    exact ⟨.rfl, .rfl⟩] at h2
  have heq : trimZeroWords o s = s.set (size o) (trimZeroes c k) := by
    have hmem := funext h2
    rw [show trimZeroWords o s = ⟨(trimZeroWords o s).mem, (trimZeroWords o s).live⟩ from rfl, h1,
      hmem, HSt.set]
    exact congrArg (HSt.mk · s.live) (funext fun y => (set_apply _ _ _ _).symm)
  have hle := trimZeroes_le c hk
  obtain ⟨w, h3⟩ := hn.take hs (k := trimZeroes c k) (by rwa [length_object])
  rw [heq, ← take_object c hle]
  exact ⟨w, h3⟩

/-- `num_shift_left` of an object that need not be moved. -/
lemma numShiftLeft_spec (shf : ℕ) (hs : Sound h sz s) (hn : NumAt s r n) (h0 : n ≠ [])
    (hbound : n.length + shf / 64 + 3 < wordMod)
    (hroom : n.length + shf / 64 + 5 ≤ getMemSz s.mem (r + 1)) :
    ∃ s' log, numShiftLeft h s r shf = some (s', r, log) ∧ Wrote h sz (Payload r) s s' ∧
      NumAt s' r (Bignum.numShiftLeft (word s r) n.length shf) := by
  have hpos := List.length_pos_iff.mpr h0
  have hhead := Sound.header hs hn.live
  have hmin : ¬ s.mem r < minSize n.length shf := by
    rw [hhead, minSize]
    split_ifs <;> omega
  have hend : shiftEnd n.length (last n) (shf / 64) (shf % 64) + 3 ≤ getMemSz s.mem (r + 1) := by
    rw [shiftEnd]
    split_ifs <;> omega
  obtain ⟨w, hw, -, -, hin, hword, hsize⟩ := shiftLeft_object (last n) hs hn.live hpos hbound
  have hwrote := hin hend
  have hlast : word s r (n.length - 1) = last n := hn.word (by omega)
  have hle := leftSize_le (last n) (shf / 64) (shf % 64) (word s r) hpos
  refine ⟨w.1, w.2, ?_, hwrote, ?_⟩
  · rw [numShiftLeft]
    dsimp only
    rw [hn.size, hn.lastWord h0, ← minSize, if_neg hmin, Option.map_some, ← hw]
  · have hnum := numAt_object (hwrote.live ▸ hn.live) hsize
      (by rw [hwrote.memSz _ hn.live]; omega)
    rw [object_congr fun i _ => hword i] at hnum
    rwa [numShiftLeft_eq, hlast]

/-- `num_shift_right` of an object with room for one word more. -/
lemma numShiftRight_spec (shf : ℕ) (hs : Sound h sz s) (hn : NumAt s r n) (hlen : 2 ≤ n.length)
    (hroom : n.length + 4 ≤ getMemSz s.mem (r + 1)) :
    ∃ s', numShiftRight h s r shf = some (s', r) ∧ Wrote h sz (Payload r) s s' ∧
      NumAt s' r (Bignum.numShiftRight (word s r) n.length shf) := by
  have hlast : word s r (n.length - 1) = last n := hn.word (by omega)
  have hne : n ≠ [] := List.length_pos_iff.mp (by omega)
  rw [numShiftRight, Bignum.numShiftRight]
  dsimp only
  rw [hn.size, hn.lastWord hne, hlast]
  by_cases hall : n.length * 64 ≤ shf
  · rw [if_pos hall, if_pos hall]
    -- both words are cleared
    obtain ⟨w₁, h1⟩ := setWord_spec 0 0 hs hn.live (by omega)
    obtain ⟨w₂, h2⟩ := setWord_spec 1 0 w₁.sound (w₁.live ▸ hn.live)
      (by rw [w₁.memSz _ hn.live]; omega)
    have w₃ := setSize_spec 2 w₂.sound (w₂.live ▸ w₁.live ▸ hn.live)
    have w := (w₁.trans w₂).trans w₃
    refine ⟨_, rfl, w, ?_⟩
    have hnum := numAt_of_wrote (k := 2) w hn.live (by rw [mem_set, if_pos rfl]) (by omega)
    have hobj : Bignum.object (word ((setWord (setWord s r 0 0) r 1 0).set (size r) 2) r) 2 =
        [0, 0] := by
      have hword := funext (word_set_size (setWord (setWord s r 0 0) r 1 0) r 2)
      rw [hword, word_setWord, word_setWord]
      rfl
    rwa [hobj] at hnum
  rw [if_neg hall, if_neg hall]
  by_cases hmod : shf % 64 ≠ 0
  · rw [if_pos hmod, if_pos hmod]
    have hr0 : r ≠ 0 := by have := hs.bounds hn.live; omega
    obtain ⟨w₁, h1⟩ := shiftRightWords_wrote (shf / 64) (shf % 64) (i := 0)
      (k := n.length - shf / 64 - 1) hs hn.live (by omega)
    have w₂ := setSize_spec (n.length - shf / 64) w₁.sound (w₁.live ▸ hn.live)
    obtain ⟨w₃, h3⟩ := setWord_spec (n.length - shf / 64 - 1) (last n >>> (shf % 64)) w₂.sound
      (w₂.live ▸ w₁.live ▸ hn.live) (by
        rw [w₂.memSz _ (w₁.live ▸ hn.live), w₁.memSz _ hn.live]
        omega)
    have w := (w₁.trans w₂).trans w₃
    have hnum := numAt_of_wrote (k := n.length - shf / 64) w hn.live
      (by rw [h3, mem_set, if_pos rfl]) (by omega)
    rw [word_setWord, funext (word_set_size _ r _), word_shiftRightWords] at hnum
    generalize setWord _ r (n.length - shf / 64 - 1) (last n >>> (shf % 64)) = s₃ at w hnum ⊢
    generalize Function.update (shiftRightLoop (shf / 64) (shf % 64) (n.length - shf / 64 - 1) 0
      (word s r)) (n.length - shf / 64 - 1) (last n >>> (shf % 64)) = c at hnum ⊢
    by_cases happ : last n ≠ 0 ∨ n.length - 1 ≤ shf / 64
    · rw [if_pos happ, if_pos happ]
      obtain ⟨s₄, h4, w₄, hnum₄⟩ := append_spec (v := 0) w.sound hnum (by
        rw [length_object, w.memSz _ hn.live]
        omega)
      have hobj : Bignum.object c (n.length - shf / 64) ++ [0] =
          Bignum.object (Function.update c (n.length - shf / 64) 0)
            (n.length - shf / 64 + 1) := by
        rw [object_succ, Function.update_self]
        refine congrArg (· ++ [0]) (object_congr fun i hi => ?_)
        rw [Function.update_of_ne (by omega)]
      rw [hobj] at hnum₄
      obtain ⟨w₅, hnum₅⟩ := trimZeroWords_spec w₄.sound hnum₄ (by omega)
      refine ⟨_, ?_, (w.trans w₄).trans w₅, hnum₅⟩
      rw [h4, Option.bind_some, if_neg hr0]
    · rw [if_neg happ, if_neg happ]
      obtain ⟨w₅, hnum₅⟩ := trimZeroWords_spec w.sound hnum (by omega)
      refine ⟨_, ?_, w.trans w₅, hnum₅⟩
      rw [Option.bind_some, if_neg hr0]
  rw [if_neg hmod, if_neg hmod]
  by_cases hdiv : shf / 64 ≠ 0
  · rw [if_pos hdiv, if_pos hdiv]
    obtain ⟨w₁, h1⟩ := moveDownWords_wrote (shf / 64) (i := 0) (k := n.length - shf / 64) hs hn.live
      (by omega)
    have w₂ := setSize_spec (n.length - shf / 64) w₁.sound (w₁.live ▸ hn.live)
    have w := w₁.trans w₂
    refine ⟨_, rfl, w, ?_⟩
    have hnum := numAt_of_wrote (k := n.length - shf / 64) w hn.live
      (by rw [mem_set, if_pos rfl]) (by omega)
    rwa [funext (word_set_size _ r _), word_moveDownWords] at hnum
  · rw [if_neg hdiv, if_neg hdiv]
    exact ⟨s, rfl, .refl hs, by rwa [object_word hn]⟩

/-! ### Shifts by a number -/

/-- A copy of the first words of a number. -/
lemma copyPart_spec (k : ℕ) (hs : Sound h sz s) (hty : ty + 1 ∈ s.live) (hn : NumAt s a n)
    (hk : k + 4 < wordMod) (hj : j ≤ n.length) (hle : j ≤ k) :
    (NoRoom h sz s (k + 3) ∧ object h s ty k (contents a 0) j = some (s, 0)) ∨
      ∃ s' o, o ≠ 0 ∧ object h s ty k (contents a 0) j = some (s', o) ∧
        New h sz ty k j s s' o ∧ NumAt s' o (n.take j) := by
  have hfits := hn.fits
  have hlen : (n.take j).length = j := List.length_take_of_le hj
  refine (object_spec ty k (contents a 0) j hs hty hk hle
    (.inr ⟨a, hn.live, rfl, by omega⟩)).imp_right ?_
  rintro ⟨s', o, ho, hobj, hnew, hcopy⟩
  have hroom := hnew.room
  refine ⟨s', o, ho, hobj, hnew, hnew.mem, hnew.size.trans hlen.symm, by omega, ?_⟩
  rw [hlen, hcopy (by unfold contents; omega), hn.slice (by omega), List.drop_zero]

/-- A copy of a number. -/
lemma copy_spec (k : ℕ) (hs : Sound h sz s) (hty : ty + 1 ∈ s.live) (hn : NumAt s a n)
    (hk : k + 4 < wordMod) (hle : n.length ≤ k) :
    (NoRoom h sz s (k + 3) ∧ object h s ty k (contents a 0) n.length = some (s, 0)) ∨
      ∃ s' o, o ≠ 0 ∧ object h s ty k (contents a 0) n.length = some (s', o) ∧
        New h sz ty k n.length s s' o ∧ NumAt s' o n := by
  have hcopy := copyPart_spec k hs hty hn hk le_rfl hle
  rwa [List.take_length] at hcopy

/-- The words behind a number, as far as a test can tell. -/
def tested (x : ℕ) : ℕ := if x = 0 ∨ x = ones then x else 1

lemma tested_lt (x : ℕ) : tested x < wordMod := by
  rw [tested]
  split_ifs with hx
  · rcases hx with rfl | rfl <;> decide
  · decide

lemma tested_iff (x : ℕ) : (x = 0 ↔ tested x = 0) ∧ (x = ones ↔ tested x = ones) := by
  rw [tested]
  split_ifs with hx
  · exact ⟨.rfl, .rfl⟩
  · rw [not_or] at hx
    exact ⟨iff_of_false hx.1 (by decide), iff_of_false hx.2 (by decide)⟩

lemma words_of_numAt (hn : NumAt s r n) :
    (∀ i < n.length, word s r i = words n (fun i => tested (word s r i)) i) ∧
      ∀ i, (word s r i = 0 ↔ words n (fun i => tested (word s r i)) i = 0) ∧
        (word s r i = ones ↔ words n (fun i => tested (word s r i)) i = ones) := by
  have hlow : ∀ i < n.length, word s r i = words n (fun i => tested (word s r i)) i :=
    fun i hi => by rw [words, if_pos hi, hn.word hi]
  refine ⟨hlow, fun i => ?_⟩
  by_cases hi : i < n.length
  · rw [← hlow i hi]
    exact ⟨.rfl, .rfl⟩
  · rw [words, if_neg hi]
    exact tested_iff _

/-- A negative count of two words, and what it is negated. -/
lemma negative_count (hx : x < wordMod) (h0 : x ≠ 0) :
    (Bignum.numNegate [x, ones]).getD 0 0 = wordMod - x ∧
      (denote [x, ones]).natAbs = wordMod - x := by
  constructor
  · have hlt : wordMod - 1 - x + 1 < wordMod := by omega
    rw [Bignum.numNegate, negateLoop_cons le_rfl, List.getD_cons_zero, wnot,
      Nat.mod_eq_of_lt hlt]
    omega
  · have hden : denote [x, ones] = -((wordMod - x : ℕ) : ℤ) := by
      rw [show [x, ones] = [x] ++ [ones] from rfl, denote_neg, Nat.cast_sub hx.le]
      simp [value]
    rw [hden, Int.natAbs_neg, Int.natAbs_natCast]

/-- **`num_shift`** on the heap. -/
lemma numShift_made (hs : Sound h sz s) (hty : ty + 1 ∈ s.live) (h₁ : NumAt s a n₁)
    (h₂ : NumAt s b n₂) (w₁ : WellFormed n₁) (w₂ : WellFormed n₂) (hn : 0 ≤ denote n₁) :
    (NoRoom h sz s (n₁.length + (denote n₂).natAbs / 64 + 5) ∧ numShift h ty s a b = none) ∨
      ∃ s' r junk, numShift h ty s a b = some (s', r) ∧ Bounded junk ∧
        NumAt s' r (Bignum.numShift false n₁ n₂ junk) ∧ NumAt s' a n₁ ∧ NumAt s' b n₂ ∧
        Ext (fun c i => c = ty + 1 ∧ i = 0) s s' := by
  have hsz₁ := w₁.size
  have hsz₂ := w₂.size
  have hfits := h₁.fits
  have hbounds := hs.bounds h₁.live
  have hsp : 4 * addrSpace < wordMod := by decide
  have hsame : ∀ m, Bignum.numShift false n₁ n₂ (fun _ => 0) = m → m = n₁ →
      NumAt s a (Bignum.numShift false n₁ n₂ fun _ => 0) := by
    rintro m rfl heq
    rwa [heq]
  have hb0 : Bounded fun _ => 0 := fun _ => (by decide : 0 < wordMod)
  rw [numShift]
  dsimp only
  rw [h₂.size, h₁.size, h₂.lastWord (words_ne_nil w₂), h₂.word (by omega : 0 < n₂.length)]
  by_cases hzero : n₂.length ≤ 2 ∧ n₂.getD 0 0 = 0
  · rw [if_pos hzero]
    exact .inr ⟨s, a, _, rfl, hb0, hsame _ rfl (by rw [Bignum.numShift, if_pos hzero]), h₁, h₂,
      .refl s⟩
  rw [if_neg hzero]
  by_cases hlong : 2 < n₂.length
  · rw [if_pos hlong]
    exact .inr ⟨s, a, _, rfl, hb0,
      hsame _ rfl (by rw [Bignum.numShift, if_neg hzero, if_pos hlong]), h₁, h₂, .refl s⟩
  rw [if_neg hlong]
  by_cases hsgn : last n₂ ≠ 0
  · rw [if_pos hsgn]
    obtain ⟨x, t, rfl⟩ := List.length_eq_two.mp (by omega : n₂.length = 2)
    obtain rfl : t = ones := w₂.sign.resolve_left hsgn
    have hx : x < wordMod := w₂.words x (by simp)
    have hx0 : x ≠ 0 := fun h0 => hzero ⟨le_rfl, h0⟩
    obtain ⟨hneg, habs⟩ := negative_count hx hx0
    have hcount : (Bignum.numNegate [x, ones]).getD 0 0 = (denote [x, ones]).natAbs :=
      hneg.trans habs.symm
    have hsign : denote [x, ones] < 0 := (denote_sign w₂).1.mp rfl
    have hlt : (denote [x, ones]).natAbs < wordMod := habs.trans_lt
      (Nat.sub_lt (by decide) (Nat.pos_of_ne_zero hx0))
    generalize hk : (denote [x, ones]).natAbs = k at hcount hlt ⊢
    have hab : a ≠ b := by
      rintro rfl
      obtain rfl := NumAt.unique h₁ h₂
      exact absurd hn (not_le.mpr hsign)
    obtain ⟨wneg, hb₁⟩ := numNegate_spec hs h₂
    have ha₁ : NumAt (numNegate s b) a n₁ :=
      h₁.ext wneg.ext (by unfold Contents; omega) fun i _ => by unfold Contents; omega
    have hk64 : 64 * (k / 64) ≤ k := Nat.mul_div_le k 64
    rw [ha₁.size, hb₁.word (by simp), hcount]
    rcases copy_spec (n₁.length + k / 64 + 1 + 1) wneg.sound (wneg.live ▸ hty) ha₁
      (by omega) (by omega) with
      ⟨hfull, hnone⟩ | ⟨s₂, r, hr, hobj, hnew, hcopy⟩
    · exact .inl ⟨(numNegate_noRoom hs h₂ hfull).mono (by omega), by rw [hnone]; rfl⟩
    obtain ⟨ha₂, har, -⟩ := hnew.older ha₁
    obtain ⟨hb₂, hbr, -⟩ := hnew.older hb₁
    obtain ⟨s₃, log, h3, w₃, h4⟩ := numShiftLeft_spec k hnew.sound hcopy (words_ne_nil w₁)
      (by omega) (by have := hnew.room; omega)
    have hb₃ := hb₂.other w₃ hbr
    obtain ⟨w₄, hb₄⟩ := numNegate_spec w₃.sound hb₃
    rw [numNegate_numNegate w₂.words] at hb₄
    rw [length_numNegate] at w₄
    have h5 := h4.ext w₄.ext (by unfold Contents; omega) fun i _ => by unfold Contents; omega
    have ha₄ : NumAt (numNegate s₃ b) a n₁ := (ha₂.other w₃ har).ext w₄.ext
      (by unfold Contents; omega) fun i _ => by unfold Contents; omega
    have hmade := New.made_between (W := Contents b [x, ones].length) hty wneg hnew
      ((w₃.mono fun _ _ => .inr).trans (w₄.mono fun _ _ => .inl))
      (fun c i hc => hc.2.1) (fun i hc => hbr (Nat.succ_injective hc.1).symm) h5
      fun hx => h₂.restored hx hb₄ (by omega)
    obtain ⟨hlow, htest⟩ := words_of_numAt hcopy
    refine .inr ⟨_, r, fun i => tested (word s₂ r i), ?_, fun i => tested_lt _, ?_, ha₄, hb₄,
      hmade.ext⟩
    · rw [hobj, Option.bind_some, if_neg hr, hb₂.word (by simp), hcount, h3]
      rfl
    · rw [Bignum.numShift, if_neg hzero, if_neg hlong, if_pos hsgn]
      dsimp only
      rw [hcount, if_neg (by simp), ← numShiftLeft_congr (by omega) hlow htest]
      exact h5
  · rw [if_neg hsgn]
    rcases copy_spec (n₁.length + 1) hs hty h₁ (by omega) (by omega) with
      ⟨hfull, hnone⟩ | ⟨s₂, r, hr, hobj, hnew, hcopy⟩
    · exact .inl ⟨hfull.mono (by omega), by rw [hnone]; rfl⟩
    obtain ⟨h₁', hne₁, -⟩ := hnew.older h₁
    obtain ⟨h₂', hne₂, -⟩ := hnew.older h₂
    obtain ⟨s₃, h3, w₃, h4⟩ := numShiftRight_spec (n₂.getD 0 0) hnew.sound hcopy hsz₁ hnew.room
    have hmade := hnew.made hs hty w₃ h4
    obtain ⟨hlow, -⟩ := words_of_numAt hcopy
    refine .inr ⟨s₃, r, fun i => tested (word s₂ r i), ?_, fun i => tested_lt _, ?_,
      h₁'.other w₃ hne₁, h₂'.other w₃ hne₂, hmade.ext⟩
    · rw [hobj, Option.bind_some, if_neg hr, h₂'.word (by omega : 0 < n₂.length), h3]
      rfl
    · rw [Bignum.numShift, if_neg hzero, if_neg hlong, if_neg hsgn,
        ← numShiftRight_congr (by omega) hlow]
      exact h4

/-- **Shifts** of a number that is not negative by a count that fits in a word, on the heap: the
operands are unchanged. -/
theorem shift_right_iff (hs : Sound h sz s) (hty : ty + 1 ∈ s.live) (h₁ : NumAt s a n₁)
    (h₂ : NumAt s b n₂) (w₁ : WellFormed n₁) (w₂ : WellFormed n₂) (hn : 0 ≤ denote n₁)
    (hk : |denote n₂| < wordMod) :
    (NoRoom h sz s (n₁.length + (denote n₂).natAbs / 64 + 5) ∧ numShift h ty s a b = none) ∨
      ∃ s' r n, numShift h ty s a b = some (s', r) ∧ NumAt s' r n ∧ NumAt s' a n₁ ∧
        NumAt s' b n₂ ∧ Ext (fun c i => c = ty + 1 ∧ i = 0) s s' ∧
        (WellFormed n ∧ denote n = shifted (denote n₁) (denote n₂) ↔ Shifts n₁ n₂) := by
  refine (numShift_made hs hty h₁ h₂ w₁ w₂ hn).imp_right ?_
  rintro ⟨s', r, junk, h3, hj, h4, h5, h6, h7⟩
  exact ⟨s', r, _, h3, h4, h5, h6, h7, numShift_right_iff w₁ hn w₂ hk hj⟩

theorem shift_right_iff_word : ∃ s ty a b s' r n, NumAt s a [7, 3, 0] ∧ NumAt s b [64, 0] ∧
    numShift 1 ty s a b = some (s', r) ∧ NumAt s' r n ∧ denote n = 3 := by
  obtain ⟨s, ty, a, b, hs, hty, -, -, h₁, h₂, hroom⟩ := exists_numbers [7, 3, 0] [64, 0]
    (by decide) (by decide)
  rcases shift_right_iff hs hty h₁ h₂ ⟨by decide, by decide, by decide⟩
    ⟨by decide, by decide, by decide⟩ (by decide) (by decide) with
    ⟨hf, -⟩ | ⟨s', r, n, h3, h4, -, -, -, h5⟩
  · exact absurd hf (hroom _ (by decide))
  · have h6 := (h5.mpr (.inr (.inr ⟨rfl, by decide, .inl (by decide)⟩))).2
    exact ⟨s, ty, a, b, s', r, n, h₁, h₂, h3, h4, h6.trans (by decide)⟩

/-- `(2 ^ 129 - 2 ^ 65) / 2` loses its sign word. -/
theorem shift_wrong : ∃ s ty a b s' r, NumAt s a [0, ones - 1, 1, 0] ∧ NumAt s b [1, 0] ∧
    numShift 1 ty s a b = some (s', r) ∧ NumAt s' r [0, ones] ∧
      denote [0, ones] ≠ shifted (denote [0, ones - 1, 1, 0]) (denote [1, 0]) := by
  obtain ⟨s, ty, a, b, hs, hty, -, -, h₁, h₂, hroom⟩ := exists_numbers [0, ones - 1, 1, 0] [1, 0]
    (by decide) (by decide)
  rcases numShift_made hs hty h₁ h₂ ⟨by decide, by decide, by decide⟩
    ⟨by decide, by decide, by decide⟩ (by decide) with
    ⟨hf, -⟩ | ⟨s', r, junk, h3, -, h4, -⟩
  · exact absurd hf (hroom _ (by decide))
  have hres : Bignum.numShift false [0, ones - 1, 1, 0] [1, 0] junk = [0, ones] := by
    have hret : Bignum.numShift false [0, ones - 1, 1, 0] [1, 0] junk =
        Bignum.numShiftRight (words [0, ones - 1, 1, 0] junk) 4 1 := by
      simp [Bignum.numShift, last]
    have hlow : ∀ i < 4, words [0, ones - 1, 1, 0] junk i =
        words [0, ones - 1, 1, 0] (fun _ => 0) i := fun i hi => (if_pos hi).trans (if_pos hi).symm
    rw [hret, numShiftRight_congr (by decide) hlow]
    decide +kernel
  rw [hres] at h4
  exact ⟨s, ty, a, b, s', r, h₁, h₂, h3, h4, by decide⟩

end LispMachine.NumObjShift
