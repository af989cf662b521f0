import LispMachine.NumObjAdd
import LispMachine.ReaderRound
import LispMachine.SetsCmp

/-!
Reading a number object from a string object.

The words are appended to a new object one after the other, those of 16 digits first. The object
has room for these; only then it may have to move. When a character is not a digit the object is
given back, and the reference that it held to its type is taken off by hand, or not.
-/

namespace LispMachine.NumObjRead

open LispMachine.Memory LispMachine.Alloc LispMachine.Heap LispMachine.HeapFrame
open LispMachine.Object LispMachine.NumHeap LispMachine.HeapRuns LispMachine.HeapInv
open LispMachine.NumObj LispMachine.NumStr LispMachine.BignumWf LispMachine.ReaderRound
open LispMachine.Owned
open LispMachine.NumVal LispMachine.Lib.Digits
open LispMachine.NumObjAdd (objCmp_numbers wsub_wadd)
open LispMachine.Bignum (digitOf digitsLoop wordsLoop digitsToNum)

variable {h sz ty : ℕ} {s s' s'' : HSt} {a b c i j k l o v x : ℕ} {n n' ws str cs : List ℕ}

/-! ### The loops -/

lemma readDigits_eq (m : Mem) : readDigits m k x c = digitsLoop c (readAll m x k) := by
  induction k generalizing x c with
  | zero => rfl
  | succ k ih =>
    rw [readDigits, readAll_succ, digitsLoop]
    exact congrArg _ (funext fun d => ih)

/-- The digits of a string object. -/
lemma readDigits_str (hstr : NumAt s b str) (hk : i + (j + k) ≤ str.length) :
    readDigits s.mem k (contents b i + j) c = digitsLoop c (((str.drop i).drop j).take k) := by
  rw [readDigits_eq, show contents b i + j = contents b (i + j) by unfold contents; omega,
    hstr.slice (by omega), List.drop_drop]

/-- The new object is given back. -/
lemma Single.free (hm : Single h sz ty s s' o n) : ∃ s'', s'.free h (o + 1) = some s'' ∧
    Sound h sz s'' ∧ s''.live = s.live ∧ Ext (fun c i => c = ty + 1 ∧ i = 0) s s'' ∧
      (ty + 1 ∈ s.live → s''.mem (refcount ty) = wadd (s.mem (refcount ty)) 1) ∧
      ∀ U, Owns h sz s s U → Took h sz s U s'' (freed h sz [o + 1] (o + 1)) := by
  obtain ⟨s'', h1, h2, h3, h4⟩ := free_ext hm.sound hm.mem
  refine ⟨s'', h1, h2, by rw [h4, hm.live, List.erase_cons_head], fun c hc i hi hi' => ?_,
    fun hty => ?_, fun U ho => (hm.took s U [] (.refl ho)).free List.mem_cons_self hm.mem h1⟩
  · refine (hm.ext.trans h3) c hc i hi ?_
    rintro (hf | rfl)
    · exact hi' hf
    · exact hm.fresh hc
  · have htylive : ty + 1 ∈ s'.live := by
      rw [hm.live]
      exact List.mem_cons_of_mem _ hty
    have hlow := (hm.sound.bounds htylive).2.2.1
    exact (h3 _ htylive 0 (by omega) fun heq => hm.fresh (heq ▸ hty)).word.trans hm.counted

/-- `free` takes no address that is not in the heap. -/
lemma free_null (hs : Sound h sz s) (ha : a ∈ s.live) : s.free h (0 + 1) = some s := by
  have hbounds := hs.bounds ha
  have hnot : 0 + 1 ∉ s.live := fun h1 => absurd (hs.bounds h1).1 (by omega)
  have hlow : 0 + 1 < padd h hdsSz := by
    rw [padd, Nat.mod_eq_of_lt (by unfold hdsSz; omega)]
    unfold hdsSz
    omega
  rw [HSt.free, Alloc.free, if_pos (.inl hlow), Option.map_some, List.erase_of_not_mem hnot]

lemma append_null : objectAppendWord h s 0 v = some (s, 0) := rfl

/-- Without an object there are only the digits to read. -/
lemma readWords_null (hs : Sound h sz s) (hstr : NumAt s b str)
    (hk : i + (k * 16 + l) ≤ str.length) :
    readWords h (contents b i) l k s 0 =
      some (s, (wordsLoop (str.drop i) l k).map fun _ => 0) := by
  induction k with
  | zero => rfl
  | succ k ih =>
    have hread : readDigits s.mem 16 (contents b i + (k * 16 + l)) 0 =
        digitsLoop 0 (((str.drop i).drop (k * 16 + l)).take 16) := readDigits_str hstr (by omega)
    rw [readWords, wordsLoop, hread]
    cases hgroup : digitsLoop 0 (((str.drop i).drop (k * 16 + l)).take 16) with
    | none => simp [free_null hs hstr.live]
    | some current => simp [objectAppendWord, ih (by omega), Function.comp_def]

/-- **The loop over the words** of 16 digits. -/
lemma readWords_spec (hm : Single h sz ty s s' o n) (hty : ty + 1 ∈ s.live)
    (hstr : NumAt s b str) (hk : i + (k * 16 + l) ≤ str.length)
    (hroom : n.length + k + 3 ≤ getMemSz s'.mem (o + 1)) :
    (∀ ws, wordsLoop (str.drop i) l k = some ws → ∃ s'',
      readWords h (contents b i) l k s' o = some (s'', some o) ∧
        Single h sz ty s s'' o (n ++ ws) ∧ ∀ x, Room h sz s' x → Room h sz s'' x) ∧
    (wordsLoop (str.drop i) l k = none → ∃ s₁ n' s'', Single h sz ty s s₁ o n' ∧
      s₁.free h (o + 1) = some s'' ∧
        readWords h (contents b i) l k s' o = some (s'', none)) := by
  induction k generalizing s' n with
  | zero =>
    refine ⟨fun ws hws => ?_, fun hws => absurd hws (by simp [wordsLoop])⟩
    obtain rfl := Option.some.inj hws
    exact ⟨s', rfl, by rwa [List.append_nil], fun _ => id⟩
  | succ k ih =>
    have hread : readDigits s'.mem 16 (contents b i + (k * 16 + l)) 0 =
        digitsLoop 0 (((str.drop i).drop (k * 16 + l)).take 16) :=
      readDigits_str (hm.older hstr).1 (by omega)
    rw [readWords, wordsLoop, hread]
    cases hgroup : digitsLoop 0 (((str.drop i).drop (k * 16 + l)).take 16) with
    | none =>
      refine ⟨fun ws hws => by simp at hws, fun _ => ?_⟩
      obtain ⟨s'', h1, -⟩ := Single.free hm
      exact ⟨s', n, s'', hm, h1, by simp [h1]⟩
    | some current =>
      obtain ⟨s₁, h1, hw, hn⟩ := append_spec (v := current) hm.sound hm.num (by omega)
      obtain ⟨ih₁, ih₂⟩ := ih (hm.wrote hty hw hn) (by omega) (by
        rw [hw.memSz _ hm.mem, List.length_append, List.length_singleton]
        omega)
      simp only [Option.bind_some, h1]
      refine ⟨fun ws hws => ?_, fun hws => ih₂ (Option.map_eq_none_iff.mp hws)⟩
      obtain ⟨ws', hws', rfl⟩ := Option.map_eq_some_iff.mp hws
      obtain ⟨s'', h5, h6, h7⟩ := ih₁ ws' hws'
      refine ⟨s'', h5, ?_, fun x hx => h7 x (hw.room x hx)⟩
      rwa [List.append_assoc] at h6

/-! ### The end -/

/-- The words of a numeral: `ws` are those of 16 digits, and `c` that of the digits before. -/
def finished (ws : List ℕ) (k c : ℕ) : List ℕ :=
  (if c ≠ 0 ∨ ¬ (k ≠ 0 ∨ c ≠ 0) then ws ++ [c] else ws) ++ [0]

/-- The free block from which `str_to_num` can end with the words `n`. -/
def finishRoom (k : ℕ) : ℕ := need (grown k) + minAllocSz + need (grown (k + 1)) + minAllocSz

lemma grown_mono (hle : k ≤ l) : grown k ≤ grown l := by
  unfold grown
  omega

lemma need_mono (hle : k ≤ l) : need k ≤ need l := by
  unfold need
  omega

/-- **The end** of `str_to_num`. -/
lemma finishNum_cases (neg : Bool) (hm : Made h sz ty s s' o n) (hty : ty + 1 ∈ s.live)
    (hlen : grown (n.length + 1) + umdsSz < wordMod) :
    (¬ Room h sz s' (finishRoom n.length) ∧ ∃ s₁ r n', Made h sz ty s s₁ r n' ∧
      finishNum h s' o k c neg = if neg then none else some (s₁, 0)) ∨
    ∃ s'' r, finishNum h s' o k c neg = some (s'', r) ∧ Made h sz ty s s'' r
        (if neg then Bignum.numNegate (finished n k c) else finished n k c) ∧
      ∀ x, Room h sz s' (x + finishRoom n.length) → Room h sz s'' x := by
  have hgrown : grown n.length ≤ grown (n.length + 1) := grown_mono (by omega)
  -- the word of the first digits, if there is one
  have hfirst : ∀ p, p = (if c ≠ 0 ∨ ¬ (k ≠ 0 ∨ c ≠ 0) then objectAppendWord h s' o c
      else some (s', o)) → (p = some (s', 0) ∧ NoRoom h sz s' (grown n.length)) ∨
      ∃ s₁ r n₁, p = some (s₁, r) ∧ Made h sz ty s s₁ r n₁ ∧ finished n k c = n₁ ++ [0] ∧
        n₁.length ≤ n.length + 1 ∧
        ∀ x, Room h sz s' (x + need (grown n.length) + minAllocSz) → Room h sz s₁ x := by
    rintro p rfl
    unfold finished
    split_ifs with hc
    · rcases append_cases c hm hty (by omega) with h1 | ⟨s₁, r, h1, h2, h3⟩
      · exact .inl h1
      · exact .inr ⟨s₁, r, _, h1, h2, rfl, by simp, h3⟩
    · exact .inr ⟨s', o, n, rfl, hm, rfl, by omega, fun x hx => hx.mono (by omega)⟩
  rw [finishNum]
  rcases hfirst _ rfl with ⟨h1, h2⟩ | ⟨s₁, r, n₁, h1, h2, h3, h4, h5⟩
  · refine .inl ⟨fun hr => h2.not_room (by omega) (hr.mono (by unfold finishRoom; omega)),
      s', o, n, hm, ?_⟩
    rw [h1, Option.bind_some]
    dsimp only
    rw [append_null, Option.bind_some]
    cases neg <;> rfl
  · have hgrown₁ : grown n₁.length ≤ grown (n.length + 1) := grown_mono h4
    have hneed := need_mono hgrown₁
    rw [h1, Option.bind_some]
    dsimp only
    rcases append_cases 0 h2 hty (by omega) with ⟨h6, h7⟩ | ⟨s₂, r₂, h6, h7, h8⟩
    · refine .inl ⟨fun hr => ?_, s₁, r, n₁, h2, by rw [h6, Option.bind_some]; cases neg <;> rfl⟩
      refine h7.not_room (by omega) (h5 _ (hr.mono ?_))
      unfold finishRoom
      omega
    · have hr₂ : r₂ ≠ 0 := by
        have := h7.sound.bounds h7.mem
        omega
      refine .inr ?_
      rw [h6, Option.bind_some, h3]
      cases neg with
      | false =>
        refine ⟨s₂, r₂, rfl, h7, fun x hx => h8 x (h5 _ (hx.mono ?_))⟩
        unfold finishRoom
        omega
      | true =>
        obtain ⟨w, h9⟩ := numNegate_spec h7.sound h7.num
        refine ⟨numNegate s₂ r₂, r₂, by simp [hr₂], h7.wrote hty (w.mono fun _ _ => Contents.payload)
          h9, fun x hx => w.room x (h8 x (h5 _ (hx.mono ?_)))⟩
        unfold finishRoom
        omega

lemma finishNum_null (neg : Bool) :
    finishNum h s 0 k c neg = if neg then none else some (s, 0) := by
  rw [finishNum]
  split_ifs <;> simp_all [append_null]

/-! ### The digits -/

lemma digitsToNum_eq : digitsToNum cs =
    (digitsLoop 0 (cs.take (cs.length % 16))).bind fun c =>
      (wordsLoop cs (cs.length % 16) (cs.length / 16)).map fun ws =>
        finished ws (cs.length / 16) c := rfl

lemma New.made_nil (hs : Sound h sz s) (hw : New h sz ty k 0 s s' o) (hty : ty + 1 ∈ s.live) :
    Single h sz ty s s' o [] := by
  have hroom := hw.room
  exact hw.made hs hty (.refl hw.sound) ⟨hw.mem, hw.size, by simp only [List.length_nil]; omega, rfl⟩

/-- The digits are read with no memory for an object. -/
lemma readNum_noRoom (neg : Bool) (hs : Sound h sz s) (hty : ty + 1 ∈ s.live)
    (hstr : NumAt s b str) (hcs : str.drop i = cs) (h0 : cs ≠ [])
    (hf : NoRoom h sz s (cs.length / 16 + 3)) :
    readNum h ty s (contents b i) cs.length neg =
      if digitsLoop 0 (cs.take (cs.length % 16)) = none then
        some (s.set (refcount ty) (wsub (s.mem (refcount ty)) 1), 0)
      else if digitsToNum cs = none then some (s, 0)
      else if neg then none else some (s, 0) := by
  have hlen : i + cs.length = str.length := by
    have hpos := List.length_pos_iff.mpr h0
    rw [← hcs, List.length_drop] at hpos ⊢
    omega
  have hbounds := hs.bounds hstr.live
  have hfits := hstr.fits
  have hsp : addrSpace < wordMod := by decide
  have hobj := object_full ty 0 hf (by omega) (Nat.zero_le _)
  have hdigits : readDigits s.mem (cs.length % 16) (contents b i) 0 =
      digitsLoop 0 (cs.take (cs.length % 16)) := by
    have := readDigits_str (c := 0) (i := i) (j := 0) (k := cs.length % 16) hstr (by omega)
    rwa [Nat.add_zero, hcs, List.drop_zero] at this
  have hwords := readWords_null (i := i) (k := cs.length / 16) (l := cs.length % 16) hs hstr
    (by omega)
  rw [hcs] at hwords
  rw [readNum, hobj, Option.bind_some]
  dsimp only
  rw [hdigits, digitsToNum_eq]
  cases hstart : digitsLoop 0 (cs.take (cs.length % 16)) with
  | none =>
    have hlow := (hs.bounds hty).2.2.1
    have hw : Wrote h sz (fun _ _ => True) s
        (s.set (refcount ty) (wsub (s.mem (refcount ty)) 1)) :=
      (Wrote.refl hs).set (a := ty + 1) (i := 0) _ hty (by omega) trivial
    simp [free_null hw.sound (hw.live.symm ▸ hty)]
  | some c =>
    simp only [hwords, Option.bind_some]
    cases hws : wordsLoop cs (cs.length % 16) (cs.length / 16) with
    | none => rfl
    | some ws => simp [finishNum_null]

/-- What the free blocks need for a number with `k` words of 16 digits. -/
def readRoom (k : ℕ) : ℕ := finishRoom k + need (k + 3) + minAllocSz

/-- The object that the digits are read into, and what is read of them. -/
lemma readNum_object (hs : Sound h sz s) (hty : ty + 1 ∈ s.live) (hstr : NumAt s b str)
    (hcs : str.drop i = cs) (h0 : cs ≠ []) (hf : ¬ NoRoom h sz s (cs.length / 16 + 3)) :
    ∃ s₁ o, object h s ty (cs.length / 16) 0 0 = some (s₁, o) ∧
      New h sz ty (cs.length / 16) 0 s s₁ o ∧
      readDigits s₁.mem (cs.length % 16) (contents b i) 0 =
        digitsLoop 0 (cs.take (cs.length % 16)) ∧
      (∀ ws, wordsLoop cs (cs.length % 16) (cs.length / 16) = some ws → ∃ s₂,
        readWords h (contents b i) (cs.length % 16) (cs.length / 16) s₁ o = some (s₂, some o) ∧
          Single h sz ty s s₂ o ws ∧ ∀ x, Room h sz s₁ x → Room h sz s₂ x) ∧
      (wordsLoop cs (cs.length % 16) (cs.length / 16) = none → ∃ s₂ n s',
        Single h sz ty s s₂ o n ∧ s₂.free h (o + 1) = some s' ∧
          readWords h (contents b i) (cs.length % 16) (cs.length / 16) s₁ o = some (s', none)) := by
  have hlen : i + cs.length = str.length := by
    have hpos := List.length_pos_iff.mpr h0
    rw [← hcs, List.length_drop] at hpos ⊢
    omega
  have hbound := hstr.length_lt hs
  have hsp : 4 * addrSpace < wordMod := by decide
  have hbounds := hs.bounds hstr.live
  have hfits := hstr.fits
  obtain ⟨s₁, o, hobj, hnew⟩ : ∃ s₁ o, object h s ty (cs.length / 16) 0 0 = some (s₁, o) ∧
      New h sz ty (cs.length / 16) 0 s s₁ o := by
    rcases object_spec ty (cs.length / 16) 0 0 hs hty (by omega) (by omega) (.inl rfl) with
      ⟨h1, -⟩ | ⟨s₁, o, -, h2, h3, -⟩
    · exact absurd h1 hf
    · exact ⟨s₁, o, h2, h3⟩
  have hmade := New.made_nil hs hnew hty
  have hstr₁ := (hmade.older hstr).1
  have hdigits : readDigits s₁.mem (cs.length % 16) (contents b i) 0 =
      digitsLoop 0 (cs.take (cs.length % 16)) := by
    have := readDigits_str (c := 0) (i := i) (j := 0) (k := cs.length % 16) hstr₁ (by omega)
    rwa [Nat.add_zero, hcs, List.drop_zero] at this
  obtain ⟨hok, hbad⟩ := readWords_spec (i := i) (k := cs.length / 16) (l := cs.length % 16) hmade
    hty hstr (by omega) (by have := hnew.room; simp only [List.length_nil]; omega)
  rw [hcs] at hok hbad
  exact ⟨s₁, o, hobj, hnew, hdigits, hok, hbad⟩

/-- A bad character before the words of 16 digits: the reference is taken off, and then the object
is given back. -/
lemma readNum_first (neg : Bool) (hs : Sound h sz s) (hty : ty + 1 ∈ s.live)
    (hstr : NumAt s b str) (hcs : str.drop i = cs) (h0 : cs ≠ [])
    (hf : ¬ NoRoom h sz s (cs.length / 16 + 3))
    (hstart : digitsLoop 0 (cs.take (cs.length % 16)) = none) : ∃ s',
      readNum h ty s (contents b i) cs.length neg = some (s', 0) ∧ s'.live = s.live ∧
        Ext (fun c i => c = ty + 1 ∧ i = 0) s s' ∧
        s'.mem (refcount ty) = wsub (wadd (s.mem (refcount ty)) 1) 1 ∧
        ∀ U, Owns h sz s s U → ∃ P, Took h sz s U s' P ∧
          (P = [] ↔ GivesBack h sz s (cs.length / 16 + 3)) := by
  obtain ⟨s₁, o, hobj, hnew, hdigits, -⟩ := readNum_object hs hty hstr hcs h0 hf
  have htylive : ty + 1 ∈ s₁.live := by
    rw [hnew.live]
    exact List.mem_cons_of_mem _ hty
  have hlow := (hnew.sound.bounds htylive).2.2.1
  have hw : Wrote h sz (fun c i => c = ty + 1 ∧ i = 0) s₁
      (s₁.set (refcount ty) (wsub (s₁.mem (refcount ty)) 1)) :=
    (Wrote.refl hnew.sound).set (a := ty + 1) (i := 0) _ htylive (by omega) ⟨rfl, rfl⟩
  obtain ⟨s', h1, -, h2, h3⟩ := free_ext hw.sound (hw.live.symm ▸ hnew.mem)
  rw [readNum, hobj, Option.bind_some]
  dsimp only
  rw [hdigits, hstart]
  refine ⟨s', by simp [h1], ?_, fun c hc i hi hi' => ?_, ?_, fun U ho => ⟨_,
    ((hnew.took s U [] (.refl ho)).wrote hw).free List.mem_cons_self
      (hw.live.symm ▸ hnew.mem) h1, ?_⟩⟩
  · rw [h3, hw.live, hnew.live, List.erase_cons_head]
  · refine ((hnew.ext.trans hw.ext).trans h2) c hc i hi ?_
    rintro ((hf | hf) | rfl)
    · exact hi' hf
    · exact hi' hf
    · exact hnew.fresh hc
  · have hlow₁ : 0 < getMemSz (s₁.set (refcount ty) (wsub (s₁.mem (refcount ty)) 1)).mem
        (ty + 1) := by
      rw [hw.memSz _ htylive]
      omega
    have hword := (h2 _ (hw.live.symm ▸ htylive) 0 hlow₁ fun heq =>
      hnew.fresh (heq ▸ hty)).word
    rw [← hnew.counted]
    exact hword.trans (by rw [mem_set]; exact if_pos rfl)
  · rw [hnew.givesBack, freed]
    by_cases hlt : o + 1 < freeBound h sz
    · simp [hlt]
    · simp [hlt]

/-- A bad character in a word of 16 digits: the object is given back. -/
lemma readNum_second (neg : Bool) (hs : Sound h sz s) (hty : ty + 1 ∈ s.live)
    (hstr : NumAt s b str) (hcs : str.drop i = cs) (h0 : cs ≠ [])
    (hf : ¬ NoRoom h sz s (cs.length / 16 + 3))
    (hstart : digitsLoop 0 (cs.take (cs.length % 16)) ≠ none) (hnone : digitsToNum cs = none) :
    ∃ s', readNum h ty s (contents b i) cs.length neg = some (s', 0) ∧
      s'.mem (refcount ty) = wadd (s.mem (refcount ty)) 1 := by
  obtain ⟨s₁, o, hobj, -, hdigits, -, hbad⟩ := readNum_object hs hty hstr hcs h0 hf
  obtain ⟨c, hc⟩ := Option.ne_none_iff_exists'.mp hstart
  rw [digitsToNum_eq, hc, Option.bind_some, Option.map_eq_none_iff] at hnone
  obtain ⟨s₂, n, s', h1, h2, h3⟩ := hbad hnone
  obtain ⟨s₃, h4, -, -, -, h7, -⟩ := Single.free h1
  obtain rfl := Option.some.inj (h4.symm.trans h2)
  rw [readNum, hobj, Option.bind_some]
  dsimp only
  rw [hdigits, hc]
  exact ⟨s₃, by simp [h3], h7 hty⟩

/-- The digits are read. -/
lemma readNum_parsed {n : List ℕ} (neg : Bool) (hs : Sound h sz s) (hty : ty + 1 ∈ s.live)
    (hstr : NumAt s b str) (hcs : str.drop i = cs) (h0 : cs ≠ [])
    (hf : ¬ NoRoom h sz s (cs.length / 16 + 3)) (hn : digitsToNum cs = some n) :
    (¬ Room h sz s (readRoom (cs.length / 16)) ∧ ∃ s₁ r n', Made h sz ty s s₁ r n' ∧
      readNum h ty s (contents b i) cs.length neg = if neg then none else some (s₁, 0)) ∨
    ∃ s' r, readNum h ty s (contents b i) cs.length neg = some (s', r) ∧
      Made h sz ty s s' r (if neg then Bignum.numNegate n else n) ∧
      ∀ x, Room h sz s (x + readRoom (cs.length / 16)) → Room h sz s' x := by
  obtain ⟨s₁, o, hobj, hnew, hdigits, hok, -⟩ := readNum_object hs hty hstr hcs h0 hf
  rw [digitsToNum_eq] at hn
  obtain ⟨c, hc, hn⟩ := Option.bind_eq_some_iff.mp hn
  obtain ⟨ws, hws, rfl⟩ := Option.map_eq_some_iff.mp hn
  obtain ⟨s₂, h1, h2, h3⟩ := hok ws hws
  have hlws := (wordsLoop_spec hws).2
  rw [readNum, hobj, Option.bind_some]
  dsimp only
  rw [hdigits, hc]
  simp only [h1, Option.bind_some]
  have hsp : 4 * addrSpace < wordMod := by decide
  have hgrown : grown (ws.length + 1) + umdsSz < wordMod := by
    have hbounds := hs.bounds hstr.live
    have hfits := hstr.fits
    have hle : cs.length ≤ str.length := by
      rw [← hcs, List.length_drop]
      omega
    unfold grown umdsSz
    omega
  rcases finishNum_cases neg h2.toMade hty hgrown with ⟨h4, s', r, n', h5, h6⟩ | ⟨s', r, h4, h5, h6⟩
  · rw [hlws] at h4
    exact .inl ⟨fun hr => h4 (h3 _ (hnew.leaves _ hr)), s', r, n', h5, h6⟩
  · rw [hlws] at h6
    refine .inr ⟨s', r, h4, h5, fun x hx => h6 x (h3 _ (hnew.leaves _ ?_))⟩
    rwa [Nat.add_assoc, Nat.add_assoc, ← Nat.add_assoc (finishRoom _)]

/-! ### The sign -/

/-- There is a sign. -/
def signed (str : List ℕ) : Bool := str.head? = some 45

/-- The characters after the sign. -/
def unsigned (str : List ℕ) : List ℕ := str.drop (if signed str then 1 else 0)

lemma unsigned_cons : unsigned (c :: cs) = if c = 45 then cs else c :: cs := by
  by_cases hc : c = 45 <;> simp [unsigned, signed, hc]

lemma strToNum_list (str : List ℕ) : Bignum.strToNum str = if unsigned str = [] then none
    else (digitsToNum (unsigned str)).map fun n =>
      if signed str then Bignum.numNegate n else n := by
  cases str with
  | nil => rfl
  | cons c cs =>
    rw [Bignum.strToNum, unsigned_cons]
    by_cases hc : c = 45
    · simp [hc, signed]
    · simp [hc, signed, Option.map_id']

lemma strToNum_heap (hstr : NumAt s b str) : strToNum h ty s b =
    if unsigned str = [] then some (s, 0)
    else readNum h ty s (contents b (if signed str then 1 else 0)) (unsigned str).length
      (signed str) := by
  rw [strToNum, hstr.size]
  cases str with
  | nil => rfl
  | cons c cs =>
    have hword : s.mem (contents b 0) = c := hstr.word (i := 0) (by simp)
    rw [if_neg (by simp), hword, unsigned_cons]
    by_cases hc : c = 45
    · have hcs : cs.length = 0 ↔ cs = [] := List.length_eq_zero_iff
      simp only [hc, signed, if_true, List.length_cons, Nat.add_sub_cancel, List.head?_cons,
        decide_true, hcs]
      rfl
    · simp [hc, signed]

lemma readRoom_le (hle : cs.length ≤ k) : readRoom (cs.length / 16) ≤ k + 40 := by
  unfold readRoom finishRoom grown need umdsSz minAllocSz
  omega

lemma length_unsigned (str : List ℕ) : (unsigned str).length ≤ str.length := by
  unfold unsigned
  split_ifs <;> simp

/-- **`str_to_num`** makes the number that the string spells, unless there is no room for it. -/
lemma strToNum_made (hs : Sound h sz s) (hty : ty + 1 ∈ s.live) (hstr : NumAt s b str) :
    (Bignum.strToNum str = none → ∃ s', strToNum h ty s b = some (s', 0)) ∧
    ∀ n, Bignum.strToNum str = some n → ¬ Room h sz s (str.length + 40) ∨
      ∃ s' r, strToNum h ty s b = some (s', r) ∧ Made h sz ty s s' r n ∧
        ∀ x, Room h sz s (x + (str.length + 40)) → Room h sz s' x := by
  have hle := readRoom_le (length_unsigned str)
  have hlen := length_unsigned str
  rw [strToNum_list, strToNum_heap hstr]
  by_cases h0 : unsigned str = []
  · simp [h0]
  rw [if_neg h0, if_neg h0, Option.map_eq_none_iff]
  obtain ⟨cs, hcs⟩ : ∃ cs, unsigned str = cs := ⟨_, rfl⟩
  have hdrop : str.drop (if signed str then 1 else 0) = cs := hcs
  rw [hcs] at h0 hle hlen ⊢
  by_cases hf : NoRoom h sz s (cs.length / 16 + 3)
  · rw [readNum_noRoom _ hs hty hstr hdrop h0 hf]
    refine ⟨fun hnone => ?_, fun n _ => .inl fun hr => ?_⟩
    · by_cases hstart : digitsLoop 0 (cs.take (cs.length % 16)) = none
      · exact ⟨_, if_pos hstart⟩
      · exact ⟨s, by rw [if_neg hstart, if_pos hnone]⟩
    · have hbounds := hs.bounds hstr.live
      have hfits := hstr.fits
      have hsp : 2 * addrSpace < wordMod := by decide
      refine hf.not_room (by unfold umdsSz; omega) (hr.mono (le_trans ?_ hle))
      unfold readRoom
      omega
  · refine ⟨fun hnone => ?_, fun n hn => ?_⟩
    · by_cases hstart : digitsLoop 0 (cs.take (cs.length % 16)) = none
      · obtain ⟨s', h4, -⟩ := readNum_first (signed str) hs hty hstr hdrop h0 hf hstart
        exact ⟨s', h4⟩
      · obtain ⟨s', h4, -⟩ := readNum_second (signed str) hs hty hstr hdrop h0 hf hstart hnone
        exact ⟨s', h4⟩
    · obtain ⟨m, hm, rfl⟩ := Option.map_eq_some_iff.mp hn
      rcases readNum_parsed (signed str) hs hty hstr hdrop h0 hf hm with ⟨h4, -⟩ | ⟨s', r, h4, h5, h6⟩
      · exact .inl fun hr => h4 (hr.mono hle)
      · exact .inr ⟨s', r, h4, h5, fun x hx => h6 x (hx.mono (by omega))⟩

/-! ### Numerals -/

/-- The string is a numeral for the integer `v`. -/
def Numeral (str : List ℕ) (v : ℤ) : Prop :=
  ∃ (neg : Bool) (cs ds : List ℕ), ds ≠ [] ∧ Spells cs ds ∧
    str = (if neg then [45] else []) ++ cs ∧ v = numeralValue neg cs

/-- Numerals are what `str_to_num` reads, as the integers that they stand for. -/
lemma numeral_iff {v : ℤ} : Numeral str v ↔ ∃ n, Bignum.strToNum str = some n ∧ denote n = v := by
  have hread : ∀ v', Numeral str v' → ∃ n, Bignum.strToNum str = some n ∧ denote n = v' := by
    rintro v' ⟨neg, cs, ds, h0, hs, rfl, rfl⟩
    exact strToNum_numeral neg hs h0
  refine ⟨hread v, ?_⟩
  rintro ⟨n, hn, rfl⟩
  obtain ⟨cs, ds, h0, hs, hstr⟩ := isNumeral_of_strToNum hn
  obtain ⟨neg, rfl⟩ : ∃ neg : Bool, str = (if neg then [45] else []) ++ cs := by
    rcases hstr with rfl | rfl
    · exact ⟨false, rfl⟩
    · exact ⟨true, rfl⟩
  have hnum : Numeral ((if neg then [45] else []) ++ cs) (numeralValue neg cs) :=
    ⟨neg, cs, ds, h0, hs, rfl, rfl⟩
  obtain ⟨m, hm, hd⟩ := hread _ hnum
  obtain rfl := Option.some.inj (hm.symm.trans hn)
  exact hd ▸ hnum

/-- **Numerals are parsed**: a string that is not a numeral gives null, and a numeral a number that
is well formed and denotes the integer of the numeral. -/
theorem numerals_parsed (hs : Sound h sz s) (hty : ty + 1 ∈ s.live) (hstr : NumAt s b str) :
    ((∀ v, ¬ Numeral str v) → ∃ s', strToNum h ty s b = some (s', 0)) ∧
    ∀ v, Numeral str v → NoRoom h sz s (str.length + 40) ∨
      ∃ s' r n, strToNum h ty s b = some (s', r) ∧ r ≠ 0 ∧ Made h sz ty s s' r n ∧
        WellFormed n ∧ denote n = v := by
  obtain ⟨h1, h2⟩ := strToNum_made hs hty hstr
  refine ⟨fun hnot => h1 ?_, fun v hv => ?_⟩
  · by_contra hsome
    obtain ⟨n, hn⟩ := Option.ne_none_iff_exists'.mp hsome
    exact hnot _ (numeral_iff.mpr ⟨n, hn, rfl⟩)
  · obtain ⟨n, hn, hd⟩ := numeral_iff.mp hv
    rcases h2 n hn with h3 | ⟨s', r, h3, h4, -⟩
    · left
      by_contra hf
      refine h3 ((room_of_not_noRoom hs hf).mono ?_)
      unfold need umdsSz
      omega
    · have := h4.sound.bounds h4.mem
      exact .inr ⟨s', r, n, h3, by omega, h4, strToNum_wellFormed hn, hd⟩

/-- A negative numeral and one that is not a numeral, read from a heap. -/
theorem numerals_parsed_seven : ∃ s ty b s' r n, NumAt s b (chars "-0f") ∧
    strToNum 1 ty s b = some (s', r) ∧ NumAt s' r n ∧ denote n = -15 := by
  obtain ⟨s, ty, b, -, hs, hty, -, -, hb, -, hroom⟩ := exists_numbers (chars "-0f") []
    (by decide) (by decide)
  have hnum : Numeral (chars "-0f") (-15) := ⟨true, [48, 102], [0, 15], by decide, rfl, rfl, rfl⟩
  rcases (numerals_parsed hs hty hb).2 _ hnum with hf | ⟨s', r, n, h1, -, h2, -, h3⟩
  · exact absurd hf (hroom _ (by decide))
  · exact ⟨s, ty, b, s', r, n, hb, h1, h2.num, h3⟩

/-! ### Numerals as keys -/

/-- The words of a numeral without the sign word: one for each 16 digits from the right on, and one
for the digits before if they are not all zeroes, or if there are no other words. -/
def wordCount (cs : List ℕ) : ℕ :=
  cs.length / 16 +
    if (cs.take (cs.length % 16)).any (· ≠ 48) ∨ cs.length / 16 = 0 then 1 else 0

lemma digitOf_eq_zero : digitOf c = some 0 ↔ c = 48 := by
  unfold digitOf
  split_ifs <;> simp <;> omega

lemma Spells.all_zero {ds : List ℕ} (hs : Spells cs ds) : (∀ d ∈ ds, d = 0) ↔ ∀ x ∈ cs, x = 48 := by
  induction ds generalizing cs with
  | nil =>
    obtain rfl := List.length_eq_zero_iff.mp hs.length
    simp
  | cons d ds ih =>
    obtain ⟨c, cs, rfl⟩ := List.exists_cons_of_length_pos (by rw [hs.length]; simp : 0 < cs.length)
    obtain ⟨hc, hcs⟩ := List.cons.inj hs
    have hd : d = 0 ↔ c = 48 := by
      rw [← digitOf_eq_zero, hc, Option.some.injEq]
    rw [List.forall_mem_cons, List.forall_mem_cons, ih hcs, hd]

lemma digitsLoop_eq_zero (h : digitsLoop 0 cs = some c) (hlen : cs.length < 16) :
    c = 0 ↔ ∀ x ∈ cs, x = 48 := by
  obtain ⟨ds, hds⟩ := digitsLoop_isSome h
  have hval := digitsLoop_spells (x := 0) (k := 0) hds (by decide) (by rw [← hds.length]; omega)
  rw [h, Nat.zero_mul, Nat.zero_add] at hval
  rw [Option.some.inj hval, numeral_eq_zero (by decide), Spells.all_zero hds]

lemma length_digitsToNum (h : digitsToNum cs = some n) : n.length = wordCount cs + 1 := by
  rw [digitsToNum_eq] at h
  obtain ⟨c, hc, h⟩ := Option.bind_eq_some_iff.mp h
  obtain ⟨ws, hws, rfl⟩ := Option.map_eq_some_iff.mp h
  have h0 := digitsLoop_eq_zero hc (by rw [List.length_take]; omega)
  have hlen := (wordsLoop_spec hws).2
  have hany : (cs.take (cs.length % 16)).any (· ≠ 48) ↔ c ≠ 0 := by simp [h0]
  rw [finished, wordCount, List.length_append, List.length_singleton]
  simp only [hany]
  by_cases hk : cs.length / 16 = 0 <;> by_cases hc0 : c = 0 <;> simp [hk, hc0, hlen]

lemma length_strToNum (h : Bignum.strToNum str = some n) :
    n.length = wordCount (unsigned str) + 1 := by
  rw [strToNum_list] at h
  by_cases h0 : unsigned str = []
  · simp [h0] at h
  rw [if_neg h0] at h
  obtain ⟨m, hm, rfl⟩ := Option.map_eq_some_iff.mp h
  rw [← length_digitsToNum hm]
  cases signed str
  · rfl
  · exact length_numNegate

/-- Two strings are read one after the other. -/
lemma read_both {str₁ str₂ n₁ n₂ : List ℕ} (hs : Sound h sz s) (hty : ty + 1 ∈ s.live)
    (ha : NumAt s a str₁) (hb : NumAt s b str₂) (h₁ : Bignum.strToNum str₁ = some n₁)
    (h₂ : Bignum.strToNum str₂ = some n₂)
    (hf : ¬ NoRoom h sz s (str₁.length + str₂.length + 80)) :
    ∃ s₁ r₁ s₂ r₂, strToNum h ty s a = some (s₁, r₁) ∧ r₁ ≠ 0 ∧
      strToNum h ty s₁ b = some (s₂, r₂) ∧ r₂ ≠ 0 ∧
      (Sets.objCmp s₂.mem r₁ r₂ = 0 ↔ n₁ = n₂) := by
  have hroom : Room h sz s (str₂.length + 40 + (str₁.length + 40)) := by
    refine (room_of_not_noRoom hs hf).mono ?_
    unfold need umdsSz
    omega
  obtain ⟨s₁, r₁, h3, hm₁, hleft⟩ := ((strToNum_made hs hty ha).2 n₁ h₁).resolve_left
    (not_not.mpr (hroom.mono (by omega)))
  have hty₁ : ty + 1 ∈ s₁.live := by
    rw [hm₁.live]
    exact List.mem_cons_of_mem _ hty
  obtain ⟨s₂, r₂, h4, hm₂, -⟩ := ((strToNum_made hm₁.sound hty₁ (hm₁.older hb).1).2 n₂
    h₂).resolve_left (not_not.mpr (hleft _ hroom))
  have hb₁ := hm₁.sound.bounds hm₁.mem
  have hb₂ := hm₂.sound.bounds hm₂.mem
  exact ⟨s₁, r₁, s₂, r₂, h3, by omega, h4, by omega,
    objCmp_numbers (hm₂.older hm₁.num).1 hm₂.num⟩

/-- **Spellings of one integer** are equal keys just if they have the same number of words. -/
theorem equal_keys_iff {str₁ str₂ : List ℕ} {v : ℤ} (hs : Sound h sz s) (hty : ty + 1 ∈ s.live)
    (ha : NumAt s a str₁) (hb : NumAt s b str₂) (h₁ : Numeral str₁ v) (h₂ : Numeral str₂ v) :
    NoRoom h sz s (str₁.length + str₂.length + 80) ∨
      ∃ s₁ r₁ s₂ r₂, strToNum h ty s a = some (s₁, r₁) ∧ r₁ ≠ 0 ∧
        strToNum h ty s₁ b = some (s₂, r₂) ∧ r₂ ≠ 0 ∧
        (Sets.objCmp s₂.mem r₁ r₂ = 0 ↔
          wordCount (unsigned str₁) = wordCount (unsigned str₂)) := by
  obtain ⟨n₁, hn₁, hd₁⟩ := numeral_iff.mp h₁
  obtain ⟨n₂, hn₂, hd₂⟩ := numeral_iff.mp h₂
  refine or_iff_not_imp_left.mpr fun hf => ?_
  obtain ⟨s₁, r₁, s₂, r₂, h3, h4, h5, h6, h7⟩ := read_both hs hty ha hb hn₁ hn₂ hf
  refine ⟨s₁, r₁, s₂, r₂, h3, h4, h5, h6, h7.trans ?_⟩
  have hl₁ := length_strToNum hn₁
  have hl₂ := length_strToNum hn₂
  refine ⟨fun heq => by rw [heq] at hl₁; omega, fun heq => ?_⟩
  exact denote_inj (strToNum_wellFormed hn₁).words (strToNum_wellFormed hn₂).words (by omega)
    (hd₁.trans hd₂.symm)

theorem equal_keys_iff_short : ∃ s ty a b s₁ r₁ s₂ r₂, NumAt s a (chars "0a") ∧
    NumAt s b (chars "A") ∧ strToNum 1 ty s a = some (s₁, r₁) ∧
    strToNum 1 ty s₁ b = some (s₂, r₂) ∧ Sets.objCmp s₂.mem r₁ r₂ = 0 := by
  obtain ⟨s, ty, a, b, hs, hty, -, -, ha, hb, hroom⟩ := exists_numbers (chars "0a") (chars "A")
    (by decide) (by decide)
  have h₁ : Numeral (chars "0a") 10 := ⟨false, [48, 97], [0, 10], by decide, rfl, rfl, rfl⟩
  have h₂ : Numeral (chars "A") 10 := ⟨false, [65], [10], by decide, rfl, rfl, rfl⟩
  rcases equal_keys_iff hs hty ha hb h₁ h₂ with hf | ⟨s₁, r₁, s₂, r₂, h3, -, h4, -, h5⟩
  · exact absurd hf (hroom _ (by decide))
  · exact ⟨s, ty, a, b, s₁, r₁, s₂, r₂, ha, hb, h3, h4, h5.mpr (by decide)⟩

/-- Thirty-one zeroes before a digit are one more word. -/
theorem not_equal_keys : ∃ s ty a b s₁ r₁ s₂ r₂, Sound 1 (2 ^ 17) s ∧ ty + 1 ∈ s.live ∧
    NumAt s a (chars "1") ∧ NumAt s b (chars "00000000000000000000000000000001") ∧
    Numeral (chars "1") 1 ∧ Numeral (chars "00000000000000000000000000000001") 1 ∧
    strToNum 1 ty s a = some (s₁, r₁) ∧ strToNum 1 ty s₁ b = some (s₂, r₂) ∧ r₁ ≠ 0 ∧ r₂ ≠ 0 ∧
    Sets.objCmp s₂.mem r₁ r₂ ≠ 0 := by
  obtain ⟨s, ty, a, b, hs, hty, -, -, ha, hb, hroom⟩ := exists_numbers (chars "1")
    (chars "00000000000000000000000000000001") (by decide) (by decide)
  have h₁ : Bignum.strToNum (chars "1") = some [1, 0] := by decide
  have h₂ : Bignum.strToNum (chars "00000000000000000000000000000001") = some [1, 0, 0] := by decide
  obtain ⟨s₁, r₁, s₂, r₂, h3, h4, h5, h6, h7⟩ := read_both hs hty ha hb h₁ h₂
    (hroom _ (by decide))
  exact ⟨s, ty, a, b, s₁, r₁, s₂, r₂, hs, hty, ha, hb,
    numeral_iff.mpr ⟨_, h₁, by decide⟩, numeral_iff.mpr ⟨_, h₂, by decide⟩, h3, h5, h4, h6,
    fun heq => absurd (h7.mp heq) (by decide)⟩

/-! ### What is left of a string that is not read -/

/-- The same blocks are allocated, with the same counts of references, and the header counts
them as before. -/
structure NoTrace (h : ℕ) (s s' : HSt) : Prop where
  live : s'.live.Perm s.live
  header : ∀ x < h + hdsSz, x ≠ fmdsPtr h → s'.mem x = s.mem x
  refcounts : ∀ o, o + 1 ∈ s.live → s'.mem (refcount o) = s.mem (refcount o)

lemma noTrace_of_restored (hs : Sound h sz s) (hr : Restored h s s') : NoTrace h s s' := by
  refine ⟨hr.live, hr.header, fun o ho => ?_⟩
  have := (hs.bounds ho).2.2.1
  exact (hr.words _ ho 0 (by omega) id).word

/-- A block that is left shows in the counters. -/
lemma noTrace_iff_nil (hs : Sound h sz s) (ho : Owns h sz s s U) (ht : Took h sz s U s' P)
    (hlive : s'.live.Perm s.live) (hx : Ext (fun _ _ => False) s s') :
    NoTrace h s s' ↔ P = [] := by
  constructor
  · exact fun htrace => ht.eq_nil ho htrace.header
  · exact fun hP => noTrace_of_restored hs ((ht.restored_iff ho hlive hx).mpr hP)

/-- The reference to the type that is left. -/
lemma not_noTrace (hty : ty + 1 ∈ s.live)
    (hcount : s'.mem (refcount ty) ≠ s.mem (refcount ty)) : ¬ NoTrace h s s' :=
  fun ht => hcount (ht.refcounts ty hty)

lemma digitsLoop_eq_none : digitsLoop x cs = none ↔ ¬ ∀ c ∈ cs, digitOf c ≠ none := by
  induction cs generalizing x with
  | nil => simp [digitsLoop]
  | cons c cs ih =>
    rw [digitsLoop, List.forall_mem_cons]
    cases hd : digitOf c with
    | none => simp
    | some d => rw [Option.bind_some, ih]; simp

/-- **No trace** is left of a string that is not read just if it has no digits, or if there is a bad
character before the words of 16 digits and a block for the object, which can be given back, or
neither of the two. -/
theorem noTrace_iff (hs : Sound h sz s) (hty : ty + 1 ∈ s.live)
    (hcount : s.mem (refcount ty) < wordMod) (hstr : NumAt s b str)
    (hr : strToNum h ty s b = some (s', 0)) :
    NoTrace h s s' ↔ unsigned str = [] ∨
      (NoRoom h sz s ((unsigned str).length / 16 + 3) ↔
        ∀ c ∈ (unsigned str).take ((unsigned str).length % 16), digitOf c ≠ none) ∧
      GivesBack h sz s ((unsigned str).length / 16 + 3) := by
  have hsp : addrSpace < wordMod := by decide
  have hlong := hstr.length_lt hs
  have hshort := length_unsigned str
  rw [strToNum_heap hstr] at hr
  by_cases h0 : unsigned str = []
  · rw [if_pos h0] at hr
    obtain ⟨rfl, -⟩ := Prod.mk.inj (Option.some.inj hr)
    exact iff_of_true (noTrace_of_restored hs (.refl h s)) (.inl h0)
  rw [if_neg h0] at hr
  obtain ⟨cs, hcs⟩ : ∃ cs, unsigned str = cs := ⟨_, rfl⟩
  have hdrop : str.drop (if signed str then 1 else 0) = cs := hcs
  rw [hcs] at h0 hr hshort ⊢
  have hstart := @digitsLoop_eq_none 0 (cs.take (cs.length % 16))
  generalize (∀ c ∈ cs.take (cs.length % 16), digitOf c ≠ none) = good at hstart ⊢
  rw [or_iff_right h0]
  by_cases hf : NoRoom h sz s (cs.length / 16 + 3)
  · have hgives : GivesBack h sz s (cs.length / 16 + 3) := fun s₁ a h1 => by
      have h2 := (alloc_noRoom hs (by unfold umdsSz; omega)).mp hf
      exact .inl (Prod.mk.inj (Option.some.inj (h1.symm.trans h2))).2
    rw [readNum_noRoom _ hs hty hstr hdrop h0 hf] at hr
    rw [iff_true_left hf, and_iff_left hgives]
    by_cases hbad : digitsLoop 0 (cs.take (cs.length % 16)) = none
    · -- the reference that was never counted is taken off
      rw [if_pos hbad] at hr
      obtain ⟨rfl, -⟩ := Prod.mk.inj (Option.some.inj hr)
      refine iff_of_false (not_noTrace hty ?_) (hstart.mp hbad)
      rw [mem_set, if_pos rfl]
      unfold wsub wordMod at *
      omega
    · have hgood := not_not.mp (hstart.not.mp hbad)
      rw [if_neg hbad] at hr
      have heq : s' = s := by
        split_ifs at hr <;> exact (Prod.mk.inj (Option.some.inj hr)).1.symm
      subst heq
      exact iff_of_true (noTrace_of_restored hs (.refl h s')) hgood
  · rw [iff_false_left hf]
    by_cases hbad : digitsLoop 0 (cs.take (cs.length % 16)) = none
    · obtain ⟨s₁, h4, h5, h6, h7, h8⟩ := readNum_first (signed str) hs hty hstr hdrop h0 hf hbad
      obtain ⟨rfl, -⟩ := Prod.mk.inj (Option.some.inj (h4.symm.trans hr))
      rw [and_iff_right (hstart.mp hbad)]
      obtain ⟨U, ho⟩ := Owns.of_sound hs
      obtain ⟨P, h9, h10⟩ := h8 U ho
      have hback : s₁.mem (refcount ty) = s.mem (refcount ty) := h7.trans (wsub_wadd hcount)
      have hx : Ext (fun _ _ => False) s s₁ := fun c hc i hi _ => by
        by_cases hct : c = ty + 1 ∧ i = 0
        · obtain ⟨rfl, rfl⟩ := hct
          have hlow := (hs.bounds hty).2.2.1
          have h11 := h6 _ hc 1 (by omega) (by omega)
          exact ⟨h11.live, h11.memSz, hback⟩
        · exact h6 c hc i hi hct
      rw [← h10]
      exact noTrace_iff_nil hs ho h9 (h5 ▸ .refl _) hx
    refine iff_of_false ?_ fun hor => hor.1 (not_not.mp (hstart.not.mp hbad))
    cases hnum : digitsToNum cs with
    | none =>
      obtain ⟨s₁, h4, h5⟩ := readNum_second (signed str) hs hty hstr hdrop h0 hf hbad hnum
      obtain ⟨rfl, -⟩ := Prod.mk.inj (Option.some.inj (h4.symm.trans hr))
      refine not_noTrace hty ?_
      rw [h5]
      unfold wadd wordMod at *
      omega
    | some n =>
      rcases readNum_parsed (signed str) hs hty hstr hdrop h0 hf hnum with
        ⟨-, s₁, r, n', h4, h5⟩ | ⟨s₁, r, h4, h5, -⟩
      · -- an object that could not grow is not given back
        have heq : s' = s₁ := by
          rw [hr] at h5
          split_ifs at h5
          exact (Prod.mk.inj (Option.some.inj h5)).1
        exact fun ht => h4.fresh (ht.live.subset (heq ▸ h4.mem))
      · have := h5.sound.bounds h5.mem
        have := (Prod.mk.inj (Option.some.inj (h4.symm.trans hr))).2
        omega

theorem noTrace_iff_dot : ∃ s ty b s', NumAt s b (chars ".f") ∧
    strToNum 1 ty s b = some (s', 0) ∧ NoTrace 1 s s' := by
  obtain ⟨s, ty, b, -, hs, hty, hone, -, hb, -, hroom⟩ := exists_numbers (chars ".f") []
    (by decide) (by decide)
  obtain ⟨s', h1⟩ := (strToNum_made hs hty hb).1 (by decide)
  refine ⟨s, ty, b, s', hb, h1, (noTrace_iff hs hty (by rw [hone]; decide) hb h1).mpr
    (.inr ⟨?_, givesBack_low hs (by decide) (by decide)⟩)⟩
  exact iff_of_false (hroom _ (by decide)) (by decide)

/-- A reference to the type is left behind by sixteen bad characters. -/
theorem leaves_trace : ∃ s s' ty b, Sound 1 (2 ^ 17) s ∧ ty + 1 ∈ s.live ∧
    NumAt s b (chars "................") ∧ strToNum 1 ty s b = some (s', 0) ∧
    s.mem (refcount ty) = 1 ∧ s'.mem (refcount ty) = 2 ∧ ¬ NoTrace 1 s s' := by
  obtain ⟨s, ty, b, -, hs, hty, hone, -, hb, -, hroom⟩ := exists_numbers
    (chars "................") [] (by decide) (by decide)
  obtain ⟨s', h1, h2⟩ := readNum_second (i := 0) false hs hty hb rfl (by decide)
    (hroom _ (by decide)) (by decide) (by decide)
  rw [hone] at h2
  refine ⟨s, s', ty, b, hs, hty, hb, (strToNum_heap hb).trans h1, hone, h2, not_noTrace hty ?_⟩
  rw [hone, h2]
  decide

end LispMachine.NumObjRead
