import LispMachine.NumObj
import LispMachine.NumAdd
import LispMachine.SetsCmp

/-!
Addition, comparison and subtraction of number objects.

The loop of `num_add` writes into a new object, which the operands do not overlap, so that the
object gets the words of the sum. Comparison and subtraction negate the second operand in place and
back again.
-/

namespace LispMachine.NumObjAdd

open LispMachine.Memory LispMachine.Alloc LispMachine.Heap LispMachine.HeapFrame
open LispMachine.HeapInv LispMachine.HeapRuns LispMachine.Owned
open LispMachine.Object LispMachine.NumHeap LispMachine.NumObj
open LispMachine.Bignum (ones addStep addLoop last)
open LispMachine.BignumWf LispMachine.NumStr LispMachine.NumVal LispMachine.NumAdd
open LispMachine.SetsCmp

variable {h sz ty : ℕ} {s s' : HSt} {a b c i k o r v x y : ℕ} {n n₁ n₂ ws : List ℕ}

/-! ### Addition -/

lemma length_addLoop (pad carry : ℕ) : (addLoop pad carry n₁ n₂).length = n₁.length := by
  induction n₁ generalizing carry n₂ with
  | nil => rfl
  | cons x xs ih =>
    cases n₂ with
    | nil => rw [addLoop, List.length_cons, ih, List.length_cons]
    | cons y ys => rw [addLoop, List.length_cons, ih, List.length_cons]

lemma addWords_eq {sz₂ pad : ℕ} (carry : ℕ) (ha : a + k ≤ r ∨ r + k ≤ a)
    (hb : b + (sz₂ - i) ≤ r ∨ r + k ≤ b) : addWords a b r sz₂ pad k i carry s =
      putAll s (contents r i) (addLoop pad carry (readAll s.mem (contents a i) k)
        (readAll s.mem (contents b i) (sz₂ - i))) := by
  induction k generalizing i carry s with
  | zero => rfl
  | succ k ih =>
    have hnext : ∀ c, contents c (i + 1) = contents c i + 1 := fun _ => rfl
    have hstep := ih (i := i + 1) (s := setWord s r i (addStep carry (word s a i)
      (if i < sz₂ then word s b i else pad)).2) (addStep carry (word s a i)
      (if i < sz₂ then word s b i else pad)).1 (by omega) (by omega)
    rw [addWords]
    dsimp only
    rw [hstep, hnext, hnext, hnext, setWord, readAll_congr (m := s.mem) (x := contents a i + 1)
      fun j _ => by rw [mem_set, if_neg (by unfold contents; omega)],
      readAll_congr (m := s.mem) (x := contents b i + 1)
      fun j _ => by rw [mem_set, if_neg (by unfold contents; omega)], readAll_succ]
    by_cases hi : i < sz₂
    · obtain ⟨l, hl⟩ : ∃ l, sz₂ - i = l + 1 := ⟨sz₂ - i - 1, by omega⟩
      rw [if_pos hi, hl, show sz₂ - (i + 1) = l by omega, readAll_succ, addLoop]
      rfl
    · rw [if_neg hi, show sz₂ - i = 0 by omega, show sz₂ - (i + 1) = 0 by omega]
      rfl

lemma addOrdered_ne_nil (h : n₁ ≠ []) : Bignum.addOrdered n₁ n₂ ≠ [] := by
  have hres : ∀ pad, addLoop pad 0 n₁ n₂ ≠ [] := fun pad => by
    rw [← List.length_pos_iff, length_addLoop]
    exact List.length_pos_iff.mpr h
  rw [Bignum.addOrdered]
  split_ifs <;> simp [hres, Bignum.trim]

lemma numAdd_ne_nil (h₁ : n₁ ≠ []) (h₂ : n₂ ≠ []) : Bignum.numAdd n₁ n₂ ≠ [] := by
  rw [Bignum.numAdd]
  split_ifs
  · exact addOrdered_ne_nil h₂
  · exact addOrdered_ne_nil h₁

/-- **`num_add`** of the operands in order, on the heap. -/
lemma addOrdered_made (hs : Sound h sz s) (hty : ty + 1 ∈ s.live) (h₁ : NumAt s a n₁)
    (h₂ : NumAt s b n₂) (h0 : n₂ ≠ []) (hlen : n₂.length ≤ n₁.length) :
    (NoRoom h sz s (n₁.length + 4) ∧ addOrdered h ty s a b = none) ∨
      ∃ s' r, addOrdered h ty s a b = some (s', r) ∧
        Single h sz ty s s' r (Bignum.addOrdered n₁ n₂) ∧
        (GivesBack h sz s (n₁.length + 4) ↔ r + 1 < freeBound h sz) := by
  have hpos := List.length_pos_iff.mpr h0
  have hne : n₁ ≠ [] := List.length_pos_iff.mp (by omega)
  have hlt := h₁.length_lt hs
  have hlast₁ := h₁.lastWord hne
  have hlast₂ := h₂.lastWord h0
  rw [addOrdered]
  dsimp only
  rw [h₁.size, h₂.size, hlast₁, hlast₂, wadd_eq (by omega)]
  rcases object_spec ty (n₁.length + 1) 0 0 hs hty
    (by have := h₁.fits; have := hs.bounds h₁.live; have : addrSpace + 5 < wordMod := by decide
        omega) (Nat.zero_le _) (.inl rfl) with
    ⟨hfull, hnone⟩ | ⟨s₁, o, ho, hobj, hnew, -⟩
  · exact .inl ⟨hfull, by rw [hnone]; rfl⟩
  right
  obtain ⟨h₁', hne₁, hd₁⟩ := hnew.older h₁
  obtain ⟨h₂', hne₂, hd₂⟩ := hnew.older h₂
  have hd₁ := hd₁ n₁.length (by omega)
  have hd₂ := hd₂ n₁.length (by omega)
  -- the size is written, and the words of the sum
  have hsize := hnew.setSize n₁.length
  have hw₁ := (h₁'.other hsize hne₁).words
  have hw₂ := (h₂'.other hsize hne₂).words
  rw [hobj, Option.bind_some]
  dsimp only
  rw [if_neg ho, addWords_eq 0 hd₁ (by omega), Nat.sub_zero, hw₁, hw₂]
  set res := addLoop (if last n₂ >>> 63 ≠ 0 then ones else 0) 0 n₁ n₂ with hres
  have hreslen : res.length = n₁.length := length_addLoop _ _
  have hresne : res ≠ [] := List.length_pos_iff.mp (by omega)
  obtain ⟨w₁, hnum⟩ := hnew.numAt res (by omega)
  rw [hreslen] at w₁ hnum
  set s₂ := putAll (s₁.set (size o) n₁.length) (contents o 0) res
  have hroom : n₁.length + 4 ≤ getMemSz s₂.mem (o + 1) := by
    have := hnew.room
    rw [w₁.memSz _ hnew.mem]
    omega
  rw [hnum.word (by omega), show res.getD (n₁.length - 1) 0 = last res by rw [last, hreslen],
    Bignum.addOrdered, ← hres]
  split_ifs with c₁ c₂
  · obtain ⟨s₃, h1, w₂, h2⟩ := append_spec (v := ones) w₁.sound hnum (by omega)
    exact ⟨s₃, o, h1, hnew.made hs hty (w₁.trans w₂) h2, hnew.givesBack⟩
  · obtain ⟨s₃, h1, w₂, h2⟩ := append_spec (v := 0) w₁.sound hnum (by omega)
    exact ⟨s₃, o, h1, hnew.made hs hty (w₁.trans w₂) h2, hnew.givesBack⟩
  · obtain ⟨w₂, h2⟩ := trimWords_spec (fun w => decide (w = last res)) w₁.sound hnum hresne
    rw [hreslen] at w₂ h2
    exact ⟨_, o, rfl, hnew.made hs hty (w₁.trans w₂) h2, hnew.givesBack⟩

/-- **`num_add`** on the heap. -/
lemma numAdd_made (hs : Sound h sz s) (hty : ty + 1 ∈ s.live) (h₁ : NumAt s a n₁)
    (h₂ : NumAt s b n₂) (hne₁ : n₁ ≠ []) (hne₂ : n₂ ≠ []) :
    (NoRoom h sz s (max n₁.length n₂.length + 4) ∧ numAdd h ty s a b = none) ∨
      ∃ s' r, numAdd h ty s a b = some (s', r) ∧
        Single h sz ty s s' r (Bignum.numAdd n₁ n₂) ∧
        (GivesBack h sz s (max n₁.length n₂.length + 4) ↔ r + 1 < freeBound h sz) := by
  rw [numAdd, h₁.size, h₂.size, Bignum.numAdd]
  by_cases hlt : n₁.length < n₂.length
  · rw [if_pos hlt, if_pos hlt, max_eq_right hlt.le]
    exact addOrdered_made hs hty h₂ h₁ hne₁ hlt.le
  · rw [if_neg hlt, if_neg hlt, max_eq_left (not_lt.mp hlt)]
    exact addOrdered_made hs hty h₁ h₂ hne₂ (not_lt.mp hlt)

/-- **Addition** of two number objects, in any order: the sum is canonical, and nothing but the
count of the references to the type changes. -/
theorem numAdd_right (hs : Sound h sz s) (hty : ty + 1 ∈ s.live) (h₁ : NumAt s a n₁)
    (h₂ : NumAt s b n₂) (w₁ : WellFormed n₁) (w₂ : WellFormed n₂) :
    ∃ n, WellFormed n ∧ denote n = denote n₁ + denote n₂ ∧ Canonical n ∧
      ∀ x y, x = a ∧ y = b ∨ x = b ∧ y = a →
        (NoRoom h sz s (max n₁.length n₂.length + 4) ∧ numAdd h ty s x y = none) ∨
        ∃ s' r, numAdd h ty s x y = some (s', r) ∧ NumAt s' r n ∧ NumAt s' a n₁ ∧
          NumAt s' b n₂ ∧ Ext (fun c i => c = ty + 1 ∧ i = 0) s s' := by
  obtain ⟨h3, h4, h5⟩ := numAdd_spec (.of_wellFormed w₁) (.of_wellFormed w₂)
  refine ⟨_, h3, h4, h5, ?_⟩
  rintro x y (⟨rfl, rfl⟩ | ⟨rfl, rfl⟩)
  · refine (numAdd_made hs hty h₁ h₂ (words_ne_nil w₁) (words_ne_nil w₂)).imp_right ?_
    rintro ⟨s', r, h6, h7, -⟩
    exact ⟨s', r, h6, h7.num, (h7.older h₁).1, (h7.older h₂).1, h7.ext⟩
  · rw [max_comm, numAdd_comm (.of_wellFormed w₁) (.of_wellFormed w₂)]
    refine (numAdd_made hs hty h₂ h₁ (words_ne_nil w₂) (words_ne_nil w₁)).imp_right ?_
    rintro ⟨s', r, h6, h7, -⟩
    exact ⟨s', r, h6, h7.num, (h7.older h₁).1, (h7.older h₂).1, h7.ext⟩

/-- The carry of `0xffffffffffffffff + 1` goes into a new word. -/
theorem numAdd_right_carry : ∃ s ty a b n s' r, NumAt s a [ones, 0] ∧ NumAt s b [1, 0] ∧
    denote n = denote [ones, 0] + denote [1, 0] ∧ numAdd 1 ty s a b = some (s', r) ∧
      NumAt s' r n := by
  obtain ⟨s, ty, a, b, hs, hty, -, -, h₁, h₂, hroom⟩ := exists_numbers [ones, 0] [1, 0]
    (by decide) (by decide)
  obtain ⟨n, -, h3, -, h4⟩ := numAdd_right hs hty h₁ h₂
    ⟨by decide, by decide, by decide⟩ ⟨by decide, by decide, by decide⟩
  rcases h4 a b (.inl ⟨rfl, rfl⟩) with ⟨hf, -⟩ | ⟨s', r, h5, h6, -⟩
  · exact absurd hf (hroom _ (by decide))
  · exact ⟨s, ty, a, b, n, s', r, h₁, h₂, h3, h5, h6⟩

/-! ### Comparison -/

lemma wsub_wadd (hx : x < wordMod) : wsub (wadd x 1) 1 = x := by
  unfold wsub wadd wordMod at *
  omega

/-- Objects are equal for `obj_cmp` when their contents are. -/
lemma objCmp_numbers (h₁ : NumAt s a n) (h₂ : NumAt s b n') :
    Sets.objCmp s.mem a b = 0 ↔ n = n' := by
  have htext : ∀ {o m}, NumAt s o m → SetsCmp.text s.mem o = m := by
    intro o m hm
    refine Eq.trans ?_ hm.words
    rw [SetsCmp.text, hm.size]
    rfl
  rw [objCmp_eq_zero, htext h₁, htext h₂]

/-- The last reference to a number is given up: its block is freed, and the type loses a
reference. -/
lemma objectDelete_num {ty : Types} (others : HSt → ℕ → Option HSt) (hs : Sound h sz s)
    (hr : r + 1 ∈ s.live) (hty : ty.numType + 1 ∈ s.live) (hne : r ≠ ty.numType)
    (htype : s.mem (type r) = 8 * ty.numType) (hone : s.mem (refcount r) = 1)
    (hcount : wsub (s.mem (refcount ty.numType)) 1 ≠ 0) (fuel : ℕ) :
    ∃ s', objectDelete h ty others (fuel + 2) s r = some s' ∧ Sound h sz s' ∧
      s'.live = s.live.erase (r + 1) ∧
      Ext (fun c i => c = r + 1 ∨ c = ty.numType + 1 ∧ i = 0) s s' ∧
      s'.mem (refcount ty.numType) = wsub (s.mem (refcount ty.numType)) 1 ∧
      ∀ s₀ U P, Took h sz s₀ U s P → r + 1 ∈ P →
        Took h sz s₀ U s' (freed h sz P (r + 1)) := by
  have hlow := hs.bounds hr
  have hlowty := hs.bounds hty
  have hself : ∀ m, Sets.objCmp m ty.numType ty.numType = 0 := fun m => objCmp_eq_zero.mpr rfl
  have w₁ : Wrote h sz (fun c _ => c = r + 1) s (s.set (refcount r) 0) :=
    (Wrote.refl hs).set (a := r + 1) (i := 0) 0 hr (by omega) rfl
  obtain ⟨s₂, hfree, hs₂, hx₂, hlive₂⟩ := free_ext w₁.sound (w₁.live.symm ▸ hr)
  have hx := w₁.ext.trans hx₂
  have hty₂ := hx _ hty 0 (by omega) (by omega)
  have w₃ : Wrote h sz (fun c i => c = ty.numType + 1 ∧ i = 0) s₂
      (s₂.set (refcount ty.numType) (wsub (s₂.mem (refcount ty.numType)) 1)) :=
    (Wrote.refl hs₂).set (a := ty.numType + 1) (i := 0) _ hty₂.live
      (by rw [hty₂.memSz]; omega) ⟨rfl, rfl⟩
  have hword : s₂.mem (refcount ty.numType) = s.mem (refcount ty.numType) := hty₂.word
  refine ⟨_, ?_, w₃.sound, w₃.live.trans (hlive₂.trans (by rw [w₁.live])),
    (hx.trans w₃.ext).mono fun c i => ?_, ?_, fun s₀ U P ht hP =>
      ((ht.wrote w₁).free hP (w₁.live.symm ▸ hr) hfree).wrote w₃⟩
  · have hptr : s.mem.ptr (type r) = ty.numType := by
      rw [Mem.ptr, htype, Nat.mul_div_cancel_left _ (by decide)]
    have hzero : s.set (refcount r) (wsub (s.mem (refcount r)) 1) = s.set (refcount r) 0 := by
      rw [hone]
      rfl
    rw [objectDelete, if_neg (by omega)]
    dsimp only
    rw [hptr, hzero, if_neg (by rw [mem_set, if_pos rfl]; decide), if_pos (.inl (hself _)), hfree,
      Option.bind_some, objectDelete, if_neg (by omega)]
    dsimp only
    rw [if_pos (by rwa [mem_set, if_pos rfl, hword])]
  · rintro ((hc | hc) | hc)
    · exact .inl hc
    · exact .inl hc
    · exact .inr hc
  · rw [mem_set, if_pos rfl, hword]

/-- The words of the second operand are negated, added to the first one, which has the words `m`
by then, and negated again. -/
lemma difference_made (hs : Sound h sz s) (hty : ty + 1 ∈ s.live)
    (h₁ : NumAt (numNegate s b) a n₁) (h₂ : NumAt s b n₂) (hne₁ : n₁ ≠ []) (hne₂ : n₂ ≠ [])
    (hw : Words n₂) :
    (NoRoom h sz s (max n₁.length n₂.length + 4) ∧ numAdd h ty (numNegate s b) a b = none) ∨
      ∃ s₂ r, numAdd h ty (numNegate s b) a b = some (s₂, r) ∧
        Single h sz ty s (numNegate s₂ b) r (Bignum.numAdd n₁ (Bignum.numNegate n₂)) ∧
        (GivesBack h sz s (max n₁.length n₂.length + 4) ↔ r + 1 < freeBound h sz) := by
  obtain ⟨w₁, hb₁⟩ := numNegate_spec hs h₂
  have hne : Bignum.numNegate n₂ ≠ [] := by
    rw [← List.length_pos_iff, length_numNegate]
    exact List.length_pos_iff.mpr hne₂
  have hty₁ : ty + 1 ∈ (numNegate s b).live := w₁.live ▸ hty
  rcases numAdd_made w₁.sound hty₁ h₁ hb₁ hne₁ hne with
    ⟨hfull, hnone⟩ | ⟨s₂, r, hadd, hmade, hgives⟩
  · rw [length_numNegate] at hfull
    exact .inl ⟨numNegate_noRoom hs h₂ hfull, hnone⟩
  have hlt₁ := h₁.length_lt w₁.sound
  have hlt₂ := h₂.length_lt hs
  rw [length_numNegate, givesBack_wrote hs w₁ (by unfold umdsSz; omega)] at hgives
  refine .inr ⟨s₂, r, hadd, ?_, hgives⟩
  obtain ⟨hb₂, hbr⟩ := hmade.older hb₁
  obtain ⟨w₃, hb₃⟩ := numNegate_spec hmade.sound hb₂
  rw [numNegate_numNegate hw] at hb₃
  rw [length_numNegate] at w₃
  -- nothing but the second operand changes
  have hrlive : r + 1 ∈ s₂.live := hmade.num.live
  have hother : ∀ c i, c ≠ b → c + 1 ∈ s₂.live → i < getMemSz s₂.mem (c + 1) →
      (numNegate s₂ b).mem (c + 1 + i) = s₂.mem (c + 1 + i) := fun c i hc hlive hi =>
    (w₃.ext _ hlive i hi (by unfold Contents; omega)).word
  have hbound := (hmade.sound.bounds hrlive).2.2.1
  have hx : Ext (fun c i => c = ty + 1 ∧ i = 0) s (numNegate s₂ b) := by
    refine h₂.restored (((w₁.ext.trans hmade.ext).trans w₃.ext).mono fun c i => ?_) hb₃ (by omega)
    rintro ((hc | hc) | hc)
    · exact .inl hc
    · exact .inr hc
    · exact .inl hc
  have hcount : (numNegate s₂ b).mem (refcount ty) = wadd (s.mem (refcount ty)) 1 := by
    have hlow := (hmade.sound.bounds (a := ty + 1) (by rw [hmade.live]; simp [hty₁])).2.2.1
    have hlow' := (hs.bounds hty).2.2.1
    have h3 := (w₃.ext (ty + 1) (by rw [hmade.live]; simp [hty₁]) 0 (by omega)
      (by unfold Contents; omega)).word
    have h4 := (w₁.ext (ty + 1) hty 0 (by omega) (by unfold Contents; omega)).word
    exact h3.trans (hmade.counted.trans (by rw [show refcount ty = ty + 1 + 0 from rfl, h4]))
  exact ⟨⟨w₃.sound, w₃.live.trans (hmade.live.trans (by rw [w₁.live])), hx,
    hmade.num.ext w₃.ext (by unfold Contents; omega) fun i _ => by unfold Contents; omega,
    (hother r 0 (Ne.symm hbr) hrlive (by omega)).trans hmade.refcount,
    (hother r 1 (Ne.symm hbr) hrlive (by omega)).trans hmade.type, hcount⟩,
    fun s₀ U P ht => (hmade.took s₀ U P (ht.wrote w₁)).wrote w₃⟩

/-- **`num_le`**: the number of the difference is freed again, and the heap is as before if its
block can be given back. -/
lemma numLe_made {ty : Types} (others : HSt → ℕ → Option HSt) (hs : Sound h sz s)
    (hty : ty.numType + 1 ∈ s.live) (h₁ : NumAt (numNegate s b) a n₁) (h₂ : NumAt s b n₂)
    (hne₁ : n₁ ≠ []) (hne₂ : n₂ ≠ []) (hw : Words n₂)
    (hcount : 0 < s.mem (refcount ty.numType))
    (hword : s.mem (refcount ty.numType) < wordMod) :
    (NoRoom h sz s (max n₁.length n₂.length + 4) ∧ numLe h ty others s a b = none) ∨
      ∃ s', numLe h ty others s a b =
          some (s', last (Bignum.numAdd n₁ (Bignum.numNegate n₂))) ∧
        Sound h sz s' ∧ s'.live = s.live ∧ Ext (fun _ _ => False) s s' ∧
        (Restored h s s' ↔ GivesBack h sz s (max n₁.length n₂.length + 4)) := by
  rw [numLe]
  dsimp only
  rcases difference_made hs hty h₁ h₂ hne₁ hne₂ hw with
    ⟨hfull, hnone⟩ | ⟨s₂, r, hadd, hmade, hgives⟩
  · exact .inl ⟨hfull, by rw [hnone]; rfl⟩
  right
  have hlow := (hs.bounds hty).2.2.1
  have hr : r + 1 ∈ (numNegate s₂ b).live := hmade.num.live
  have hbound := (hmade.sound.bounds hr).2.2.1
  have hne : r ≠ ty.numType := fun heq => hmade.fresh (heq ▸ hty)
  have hty₂ : ty.numType + 1 ∈ (numNegate s₂ b).live := by
    rw [hmade.live]
    exact List.mem_cons_of_mem _ hty
  have hlen : Bignum.numAdd n₁ (Bignum.numNegate n₂) ≠ [] := by
    refine numAdd_ne_nil hne₁ ?_
    rw [← List.length_pos_iff, length_numNegate]
    exact List.length_pos_iff.mpr hne₂
  rw [hadd, Option.bind_some]
  dsimp only
  rw [hmade.num.lastWord hlen]
  -- the reference that is given up at once
  have w₄ : Wrote h sz (fun c i => c = r + 1 ∧ i = 0) (numNegate s₂ b)
      (incRefcount (numNegate s₂ b) r 1) :=
    (Wrote.refl hmade.sound).incRefcount 1 hr ⟨rfl, rfl⟩
  have htype := (w₄.ext _ hr 1 (by omega) (by omega)).word.trans hmade.type
  have hcnt := (w₄.ext _ hty₂ 0 (by have := (hmade.sound.bounds hty₂).2.2.1; omega)
    (by omega)).word.trans hmade.counted
  have hone : (incRefcount (numNegate s₂ b) r 1).mem (refcount r) = 1 := by
    rw [incRefcount, mem_set, if_pos rfl, hmade.refcount]
    decide
  have hback : wsub ((incRefcount (numNegate s₂ b) r 1).mem (refcount ty.numType)) 1 =
      s.mem (refcount ty.numType) := by
    rw [show refcount ty.numType = ty.numType + 1 + 0 from rfl, hcnt]
    exact wsub_wadd hword
  obtain ⟨s₅, hdel, hs₅, hlive₅, hx₅, hcount₅, htook₅⟩ := objectDelete_num others w₄.sound
    (w₄.live ▸ hr) (w₄.live ▸ hty₂) hne htype hone (by omega) 1
  have hlive : s₅.live = s.live := by rw [hlive₅, w₄.live, hmade.live, List.erase_cons_head]
  suffices hx : Ext (fun _ _ => False) s s₅ by
    refine ⟨s₅, by rw [hdel]; rfl, hs₅, hlive, hx, ?_⟩
    -- one block was taken, and it is given back if its address allows it
    obtain ⟨U, ho⟩ := Owns.of_sound hs
    have ht := htook₅ s U _ ((hmade.took s U [] (.refl ho)).wrote w₄) List.mem_cons_self
    rw [ht.restored_iff ho (hlive ▸ .refl _) hx, hgives, freed]
    by_cases hlt : r + 1 < freeBound h sz
    · simp [hlt]
    · simp [hlt]
  -- the count of the type is as before, and the other words were not touched
  intro c hc i hi _
  have hcr : c ≠ r + 1 := fun heq => hmade.fresh (heq ▸ hc)
  by_cases hcty : c = ty.numType + 1 ∧ i = 0
  · obtain ⟨rfl, rfl⟩ := hcty
    have h6 := ((hmade.ext.trans w₄.ext).trans hx₅) _ hc 1 (by omega) (by omega)
    exact ⟨h6.live, h6.memSz, hcount₅.trans hback⟩
  · exact ((hmade.ext.trans w₄.ext).trans hx₅) c hc i hi (by
      rintro ((h6 | ⟨h6, -⟩) | (h6 | h6))
      · exact hcty h6
      · exact hcr h6
      · exact hcr h6
      · exact hcty h6)

/-- At `args` there is an array of a builtin's arguments: `a₁` and `a₂` come second and third. -/
def ArgsAt (s : HSt) (args a₁ a₂ : ℕ) : Prop :=
  ∃ base x xs ys, NumAt s args (8 * base :: xs) ∧ NumAt s base (x :: 8 * a₁ :: 8 * a₂ :: ys) ∧
    args ≠ a₂ ∧ base ≠ a₂

lemma ArgsAt.idx {args a₁ a₂ : ℕ} (h : ArgsAt s args a₁ a₂) :
    objArrayIdx s.mem args 1 = a₁ ∧ objArrayIdx s.mem args 2 = a₂ := by
  obtain ⟨base, x, xs, ys, h1, h2, -⟩ := h
  have h3 := h1.word (i := 0) (by simp)
  have h4 := h2.word (i := 1) (by simp)
  have h5 := h2.word (i := 2) (by simp)
  rw [word, List.getD_cons_zero] at h3
  simp only [word, List.getD_cons_succ, List.getD_cons_zero] at h4 h5
  have hbase : s.mem.ptr (contents args 0) = base := by
    rw [Mem.ptr, h3, Nat.mul_div_cancel_left _ (by decide)]
  rw [objArrayIdx, objArrayIdx, hbase, Mem.ptr, Mem.ptr, h4, h5,
    Nat.mul_div_cancel_left _ (by decide), Nat.mul_div_cancel_left _ (by decide)]
  exact ⟨rfl, rfl⟩

/-- The arguments stay what they are when the second one is negated. -/
lemma ArgsAt.negate {args : ℕ} (hs : Sound h sz s) (h : ArgsAt s args a b) (hn : NumAt s b n) :
    ArgsAt (numNegate s b) args a b := by
  obtain ⟨base, x, xs, ys, h1, h2, h3, h4⟩ := h
  have hw := (numNegate_spec hs hn).1.ext
  exact ⟨base, x, xs, ys,
    h1.ext hw (by unfold Contents; omega) fun i _ => by unfold Contents; omega,
    h2.ext hw (by unfold Contents; omega) fun i _ => by unfold Contents; omega, h3, h4⟩

/-- A heap with a type, a number and a copy of it, and two arrays of arguments: the number twice,
and the number and the copy. -/
lemma exists_arguments (n : List ℕ) (hn : n.length ≤ 61) : ∃ s ty a b args args',
    Sound 1 (2 ^ 17) s ∧ ty + 1 ∈ s.live ∧ s.mem (refcount ty) = 1 ∧ a ≠ b ∧ NumAt s a n ∧
      NumAt s b n ∧ ArgsAt s args a a ∧ ArgsAt s args' a b ∧
      ∀ k ≤ 1000, ¬ NoRoom 1 (2 ^ 17) s k := by
  obtain ⟨s, c, os, hf, hlen, hnd, hos⟩ := exists_objects 7 (by decide)
  match os, hlen with
  | [ty, a, b, args, base, args', base'], _ =>
    obtain ⟨s', hf', w, h3, h4⟩ := fill_all [[], n, n, [8 * base], [0, 8 * a, 8 * a],
      [8 * base'], [0, 8 * a, 8 * b]] hf hnd hos rfl (by simp [hn])
    have hne : a ≠ b ∧ args ≠ a ∧ base ≠ a ∧ args' ≠ b ∧ base' ≠ b := by
      simp only [List.nodup_cons, List.mem_cons, List.not_mem_nil, or_false, not_or] at hnd
      exact ⟨by tauto, by tauto, by tauto, by tauto, by tauto⟩
    exact ⟨s', ty, a, b, args, args', w.sound, w.live ▸ (hos ty (by simp)).1, h4 ty (by simp),
      hne.1, h3 (a, n) (by simp), h3 (b, n) (by simp),
      ⟨base, 0, [], [], h3 (args, _) (by simp), h3 (base, _) (by simp), hne.2.1, hne.2.2.1⟩,
      ⟨base', 0, [], [], h3 (args', _) (by simp), h3 (base', _) (by simp), hne.2.2.2⟩,
      fun k hk => not_noRoom hf' (by omega) hk⟩

/-- **`b_minus`** -/
lemma bMinus_made {args : ℕ} (hs : Sound h sz s) (hty : ty + 1 ∈ s.live)
    (hargs : ArgsAt s args a b) (h₁ : NumAt (numNegate s b) a n₁) (h₂ : NumAt s b n₂)
    (hne₁ : n₁ ≠ []) (hne₂ : n₂ ≠ []) (hw : Words n₂) :
    (NoRoom h sz s (max n₁.length n₂.length + 4) ∧ bMinus h ty s args = none) ∨
      ∃ s' r, bMinus h ty s args = some (s', r) ∧
        Made h sz ty s s' r (Bignum.numAdd n₁ (Bignum.numNegate n₂)) := by
  rw [bMinus]
  dsimp only
  rw [hargs.idx.2, (hargs.negate hs h₂).idx.1]
  rcases difference_made hs hty h₁ h₂ hne₁ hne₂ hw with
    ⟨hfull, hnone⟩ | ⟨s₂, r, hadd, hmade, -⟩
  · exact .inl ⟨hfull, by rw [hnone]; rfl⟩
  · exact .inr ⟨_, r, by rw [hadd]; rfl, hmade.toMade⟩

end LispMachine.NumObjAdd
