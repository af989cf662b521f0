import LispMachine.NumObjAdd
import LispMachine.NumMul

/-!
Multiplication of number objects.

The rows are added to the words of a new object, which the operands do not overlap. Before that the
operands are negated in place where they are negative, and afterwards back again; an object that is
both operands is negated twice each time.
-/

namespace LispMachine.NumObjMul

open LispMachine.Memory LispMachine.Alloc LispMachine.Heap LispMachine.HeapFrame
open LispMachine.Object LispMachine.NumHeap LispMachine.NumObj LispMachine.NumObjAdd
open LispMachine.Bignum (ones addStep mulRow mulBits mulWords last trim)
open LispMachine.BignumWf LispMachine.NumStr LispMachine.NumVal LispMachine.NumAdd
open LispMachine.NumMul

variable {h sz ty : ℕ} {s s' : HSt} {a b c i j k o r v x y : ℕ}
  {n n₁ n₂ res ws xs : List ℕ}

/-! ### The rows -/

lemma rowWords_eq {nsh : ℕ} (carry prev : ℕ) (ha : a + (j + k) ≤ r + i ∨ r + (i + j + k) ≤ a) :
    rowWords a r i nsh k j carry prev s = putAll s (contents r (i + j))
      (mulRow nsh carry prev (readAll s.mem (contents a j) k)
        (readAll s.mem (contents r (i + j)) k)) := by
  induction k generalizing j carry prev s with
  | zero => rfl
  | succ k ih =>
    have hnext : ∀ c l, contents c (l + 1) = contents c l + 1 := fun _ _ => rfl
    rw [rowWords]
    dsimp only
    rw [ih (j := j + 1) _ _ (by omega), ← Nat.add_assoc i j 1, hnext, hnext, setWord,
      readAll_congr (m := s.mem) (x := contents a j + 1)
      fun l _ => by rw [mem_set, if_neg (by unfold contents; omega)],
      readAll_congr (m := s.mem) (x := contents r (i + j) + 1)
      fun l _ => by rw [mem_set, if_neg (by omega)], readAll_succ, readAll_succ, mulRow]
    rfl

lemma length_mulRow (nsh carry prev : ℕ) : (mulRow nsh carry prev n res).length = res.length := by
  induction n generalizing carry prev res with
  | nil => rw [mulRow]; simp
  | cons x xs ih =>
    cases res with
    | nil => rw [mulRow]; simp
    | cons r rs => rw [mulRow, List.length_cons, List.length_cons, ih]

/-- One row is added. -/
lemma row_spec (nsh : ℕ) (hs : Sound h sz s) (ha : NumAt s a n) (hr : NumAt s r res) (hne : a ≠ r)
    (hi : i + n.length ≤ res.length) :
    Wrote h sz (Payload r) s (rowWords a r i nsh n.length 0 0 0 s) ∧
      NumAt (rowWords a r i nsh n.length 0 0 0 s) r
        (res.take i ++ mulRow nsh 0 0 n (res.drop i)) := by
  have happ := apart_contents hs ha.live hr.live hne ha.fits
    (k := i + n.length) (by have := hr.fits; omega)
  have hlo : ((res.drop i).take n.length).length = n.length :=
    List.length_take_of_le (by rw [List.length_drop]; omega)
  rw [rowWords_eq 0 0 (by omega), Nat.add_zero, ha.words, hr.slice hi]
  have hlen : (mulRow nsh 0 0 n ((res.drop i).take n.length)).length = n.length := by
    rw [length_mulRow, hlo]
  have hin := hi
  rw [← hlen] at hin
  obtain ⟨h1, h2⟩ := hr.putAt hs hin
  refine ⟨h1, ?_⟩
  have hsplit : mulRow nsh 0 0 n (res.drop i) =
      mulRow nsh 0 0 n ((res.drop i).take n.length) ++ res.drop (i + n.length) := by
    conv_lhs => rw [← List.take_append_drop n.length (res.drop i)]
    rw [mulRow_append hlo, List.drop_drop]
  rw [hlen, List.append_assoc, ← hsplit] at h2
  exact h2

/-- The rows for the bits of one word. -/
lemma bitRows_spec (hs : Sound h sz s) (ha : NumAt s a n) (hr : NumAt s r res) (hne : a ≠ r)
    (hi : i + n.length ≤ res.length) (nsh x : ℕ) :
    Wrote h sz (Payload r) s (bitRows a r n.length i k nsh x s) ∧
      NumAt (bitRows a r n.length i k nsh x s) r (mulBits n i k nsh x res) ∧
      (mulBits n i k nsh x res).length = res.length := by
  induction k generalizing nsh x s res with
  | zero => exact ⟨.refl hs, hr, rfl⟩
  | succ k ih =>
    rw [bitRows, mulBits]
    by_cases hx : x ≠ 0
    · rw [if_pos hx, if_pos hx]
      dsimp only
      by_cases hbit : x &&& 1 ≠ 0
      · rw [if_pos hbit, if_pos hbit]
        obtain ⟨w₁, h1⟩ := row_spec nsh hs ha hr hne hi
        have hlen : (res.take i ++ mulRow nsh 0 0 n (res.drop i)).length = res.length := by
          rw [List.length_append, length_mulRow, List.length_take, List.length_drop]
          omega
        obtain ⟨w₂, h2, h3⟩ := ih w₁.sound (ha.other w₁ hne) h1 (by omega) (nsh + 1) (x >>> 1)
        exact ⟨w₁.trans w₂, h2, h3.trans hlen⟩
      · rw [if_neg hbit, if_neg hbit]
        exact ih hs ha hr hi (nsh + 1) (x >>> 1)
    · rw [if_neg hx, if_neg hx]
      exact ⟨.refl hs, hr, rfl⟩

/-- The rows for the words of the second operand from the word `i` on. -/
lemma mulRows_spec (hs : Sound h sz s) (ha : NumAt s a n₁) (hb : NumAt s b n₂)
    (hr : NumAt s r res) (hne₁ : a ≠ r) (hne₂ : b ≠ r) (hik : i + k ≤ n₂.length)
    (hlen : i + k + n₁.length ≤ res.length + 1) :
    Wrote h sz (Payload r) s (mulRows a b r n₁.length k i s) ∧
      NumAt (mulRows a b r n₁.length k i s) r (mulWords n₁ i ((n₂.drop i).take k) res) ∧
      (mulWords n₁ i ((n₂.drop i).take k) res).length = res.length := by
  induction k generalizing i s res with
  | zero => exact ⟨.refl hs, by rwa [mulRows, List.take_zero, mulWords], by
      rw [List.take_zero, mulWords]⟩
  | succ k ih =>
    have hi : i < n₂.length := by omega
    have hwords : (n₂.drop i).take (k + 1) = n₂.getD i 0 :: (n₂.drop (i + 1)).take k := by
      rw [List.drop_eq_getElem_cons hi, List.take_succ_cons, List.getD_eq_getElem _ _ hi]
    rw [mulRows, hb.word hi, hwords, mulWords]
    obtain ⟨w₁, h1, h2⟩ := bitRows_spec (i := i) (k := 64) hs ha hr hne₁ (by omega) 0
      (n₂.getD i 0)
    obtain ⟨w₂, h3, h4⟩ := ih w₁.sound (ha.other w₁ hne₁) (hb.other w₁ hne₂) h1
      (i := i + 1) (by omega) (by omega)
    exact ⟨w₁.trans w₂, h3, h4.trans h2⟩

lemma clearWords_eq : clearWords r k s = putAll s (contents r 0) (List.replicate k 0) := by
  induction k with
  | zero => rfl
  | succ k ih =>
    rw [clearWords, ih, List.replicate_succ', putAll_append, List.length_replicate]
    rfl

/-! ### The signs of the operands -/

lemma NumAt.unique (h₁ : NumAt s a n₁) (h₂ : NumAt s a n₂) : n₁ = n₂ := by
  have hlen : n₁.length = n₂.length := h₁.size.symm.trans h₂.size
  rw [← h₁.words, ← h₂.words, hlen]

section Negations

variable (p q : Prop) [Decidable p] [Decidable q]

lemma negateIf_spec (hs : Sound h sz s) (hn : NumAt s a n) :
    Wrote h sz (Contents a n.length) s (if p then numNegate s a else s) ∧
      NumAt (if p then numNegate s a else s) a (if p then Bignum.numNegate n else n) := by
  split_ifs
  · exact numNegate_spec hs hn
  · exact ⟨.refl hs, hn⟩

/-- The words of the two operands. -/
def Operands (a b : ℕ) (n₁ n₂ : List ℕ) (c i : ℕ) : Prop :=
  Contents a n₁.length c i ∨ Contents b n₂.length c i

/-- The operands are negated where their signs tell so. -/
lemma operands_spec {same : Bool} (hsame : same = true ↔ a = b) (hs : Sound h sz s)
    (h₁ : NumAt s a n₁) (h₂ : NumAt s b n₂) {s₁ s₂ : HSt}
    (hs₁ : s₁ = if p then numNegate s a else s) (hs₂ : s₂ = if q then numNegate s₁ b else s₁)
    {m₁ m₂ : List ℕ} (hm₁ : m₁ = if p then Bignum.numNegate n₁ else n₁)
    (hm₂ : m₂ = if q then Bignum.numNegate (if same then m₁ else n₂) else
      if same then m₁ else n₂) :
    Wrote h sz (Operands a b n₁ n₂) s s₂ ∧ NumAt s₂ a (if same then m₂ else m₁) ∧
      NumAt s₂ b m₂ ∧ m₁.length = n₁.length ∧ m₂.length = n₂.length := by
  obtain ⟨w₁, ha⟩ := negateIf_spec p hs h₁
  rw [← hs₁, ← hm₁] at ha
  rw [← hs₁] at w₁
  have hlen : m₁.length = n₁.length := by
    rw [hm₁]
    split_ifs
    · exact length_numNegate
    · rfl
  -- what the second operand is by now
  have hb : NumAt s₁ b (if same then m₁ else n₂) := by
    by_cases heq : a = b
    · rw [if_pos (hsame.mpr heq), ← heq]
      exact ha
    · rw [if_neg fun hf => heq (hsame.mp hf)]
      exact h₂.ext w₁.ext (by unfold Contents; omega) fun i _ => by unfold Contents; omega
  have hlen₂ : (if same then m₁ else n₂).length = n₂.length := by
    split_ifs with hf
    · obtain rfl := hsame.mp hf
      rw [hlen, NumAt.unique h₁ h₂]
    · rfl
  obtain ⟨w₂, hb₂⟩ := negateIf_spec q w₁.sound hb
  rw [← hs₂, ← hm₂] at hb₂
  rw [← hs₂, hlen₂] at w₂
  refine ⟨(w₁.mono fun _ _ => .inl).trans (w₂.mono fun _ _ => .inr), ?_, hb₂, hlen, ?_⟩
  · by_cases heq : a = b
    · rw [if_pos (hsame.mpr heq), heq]
      exact hb₂
    · rw [if_neg fun hf => heq (hsame.mp hf)]
      exact ha.ext w₂.ext (by unfold Contents; omega) fun i _ => by unfold Contents; omega
  · rw [hm₂, ← hlen₂]
    split_ifs <;> simp

lemma operands_noRoom (hs : Sound h sz s)
    (h₁ : NumAt s a n₁) (h₂ : NumAt s b n₂) {s₁ s₂ : HSt}
    (hs₁ : s₁ = if p then numNegate s a else s) (hs₂ : s₂ = if q then numNegate s₁ b else s₁)
    (hf : NoRoom h sz s₂ k) : NoRoom h sz s k := by
  obtain ⟨w₁, ha⟩ := negateIf_spec p hs h₁
  rw [← hs₁] at w₁ ha
  have hf₁ : NoRoom h sz s₁ k := by
    by_cases hq : q
    · rw [hs₂, if_pos hq] at hf
      by_cases heq : a = b
      · exact numNegate_noRoom w₁.sound ha (heq ▸ hf)
      · have hb : NumAt s₁ b n₂ :=
          h₂.ext w₁.ext (by unfold Contents; omega) fun i _ => by unfold Contents; omega
        exact numNegate_noRoom w₁.sound hb hf
    · rwa [hs₂, if_neg hq] at hf
  by_cases hp : p
  · rw [hs₁, if_pos hp] at hf₁
    exact numNegate_noRoom hs h₁ hf₁
  · rwa [hs₁, if_neg hp] at hf₁

/-- The same negations once more make the operands what they were. -/
lemma operands_restored {same : Bool} (hsame : same = true ↔ a = b) (hs : Sound h sz s)
    (hsn : same = true → n₁ = n₂) (hw₁ : Words n₁) (hw₂ : Words n₂) {m₁ m₂ : List ℕ}
    (hm₁ : m₁ = if p then Bignum.numNegate n₁ else n₁)
    (hm₂ : m₂ = if q then Bignum.numNegate (if same then m₁ else n₂) else
      if same then m₁ else n₂)
    (h₁ : NumAt s a (if same then m₂ else m₁)) (h₂ : NumAt s b m₂)
    (hl₁ : m₁.length = n₁.length) (hl₂ : m₂.length = n₂.length) {s₁ s₂ : HSt}
    (hs₁ : s₁ = if p then numNegate s a else s)
    (hs₂ : s₂ = if q then numNegate s₁ b else s₁) :
    Wrote h sz (Operands a b n₁ n₂) s s₂ ∧ NumAt s₂ a n₁ ∧ NumAt s₂ b n₂ := by
  obtain ⟨w, ha, hb, -⟩ := operands_spec p q hsame hs h₁ h₂ hs₁ hs₂ rfl rfl
  have hlen : (if same then m₂ else m₁).length = n₁.length := by
    split_ifs with hf
    · rw [hl₂, hsn hf]
    · exact hl₁
  have hw : Wrote h sz (Operands a b n₁ n₂) s s₂ := by
    refine w.mono fun c i => ?_
    unfold Operands
    rw [hlen, hl₂]
    exact id
  cases same with
  | true =>
    obtain rfl := hsn rfl
    subst hm₁ hm₂
    refine ⟨hw, ?_, ?_⟩
    · convert ha using 1
      by_cases hp : p <;> by_cases hq : q <;>
        simp [hp, hq, numNegate_numNegate hw₁]
    · convert hb using 1
      by_cases hp : p <;> by_cases hq : q <;>
        simp [hp, hq, numNegate_numNegate hw₁]
  | false =>
    subst hm₁ hm₂
    refine ⟨hw, ?_, ?_⟩
    · convert ha using 1
      by_cases hp : p <;> simp [hp, numNegate_numNegate hw₁]
    · convert hb using 1
      by_cases hq : q <;> simp [hq, numNegate_numNegate hw₂]

end Negations

/-! ### The product -/

/-- **`num_mul`** of the operands in order, on the heap. -/
lemma mulOrdered_made {same : Bool} (hsame : same = true ↔ a = b) (hs : Sound h sz s)
    (hty : ty + 1 ∈ s.live) (h₁ : NumAt s a n₁) (h₂ : NumAt s b n₂) (w₁ : WellFormed n₁)
    (w₂ : WellFormed n₂) :
    (NoRoom h sz s (n₁.length + n₂.length + 2) ∧
      (mulOrdered h ty s a b = none ∨ mulOrdered h ty s a b = some (s, 0))) ∨
    ∃ s' r, r ≠ 0 ∧ mulOrdered h ty s a b = some (s', r) ∧
      Made h sz ty s s' r (Bignum.mulOrdered same n₁ n₂) := by
  have hsz₁ := w₁.size
  have hsz₂ := w₂.size
  have hlast₁ := h₁.lastWord (words_ne_nil w₁)
  have hlast₂ := h₂.lastWord (words_ne_nil w₂)
  have hsn : same = true → n₁ = n₂ := fun hf => by
    obtain rfl := hsame.mp hf
    exact NumAt.unique h₁ h₂
  rw [mulOrdered, Bignum.mulOrdered]
  dsimp only
  rw [h₁.size, h₂.size, hlast₁, hlast₂, h₁.word (by omega : 0 < n₁.length)]
  by_cases hzero : (n₁.length = 2 ∧ n₁.getD 0 0 = 0) ∨ (n₁.length = 2 ∧ n₁.getD 0 0 = 0)
  · rw [if_pos hzero, if_pos hzero]
    rcases object_spec ty 2 0 2 hs hty (by decide) le_rfl (.inl rfl) with
      ⟨hfull, hnone⟩ | ⟨s₁, o, ho, hobj, hnew, -⟩
    · refine .inl ⟨hfull.mono (by omega), .inr ?_⟩
      rw [hnone]
      rfl
    · have hself : s₁.set (size o) [0, 0].length = s₁ :=
        congrArg (HSt.mk · s₁.live) (funext fun x => by
          rw [set_apply]
          split_ifs with hx
          · rw [hx, hnew.size]
            rfl
          · rfl)
      obtain ⟨w₃, h3⟩ := hnew.numAt [0, 0] le_rfl
      rw [hself] at w₃ h3
      refine .inr ⟨_, o, ho, ?_, (hnew.made hs hty w₃ h3).toMade⟩
      rw [hobj, Option.map_some]
      dsimp only
      rw [if_neg ho, clearWords_eq]
      rfl
  rw [if_neg hzero, if_neg hzero]
  obtain ⟨m₁, hm₁⟩ : ∃ m₁, m₁ = if last n₁ ≠ 0 then Bignum.numNegate n₁ else n₁ := ⟨_, rfl⟩
  obtain ⟨m₂, hm₂⟩ : ∃ m₂, m₂ = if last n₂ ≠ 0 then Bignum.numNegate (if same then m₁ else n₂)
    else if same then m₁ else n₂ := ⟨_, rfl⟩
  obtain ⟨s₁, hs₁⟩ : ∃ s₁, s₁ = if last n₁ ≠ 0 then numNegate s a else s := ⟨_, rfl⟩
  obtain ⟨s₂, hs₂⟩ : ∃ s₂, s₂ = if last n₂ ≠ 0 then numNegate s₁ b else s₁ := ⟨_, rfl⟩
  rw [← hm₁, ← hm₂, ← hs₁, ← hs₂]
  obtain ⟨wneg, ha, hb, hl₁, hl₂⟩ := operands_spec _ _ hsame hs h₁ h₂ hs₁ hs₂ hm₁ hm₂
  have hlen : (if same then m₂ else m₁).length = n₁.length := by
    split_ifs with hf
    · rw [hl₂, hsn hf]
    · exact hl₁
  have hsmall : n₁.length + n₂.length + 4 < wordMod := by
    have h3 := h₁.fits
    have h4 := h₂.fits
    have h5 := hs.bounds h₁.live
    have h6 := hs.bounds h₂.live
    have h7 : 2 * addrSpace < wordMod := by decide
    omega
  rcases object_spec ty (n₁.length + n₂.length - 1) 0 0 wneg.sound (wneg.live ▸ hty) (by omega)
    (Nat.zero_le _) (.inl rfl) with ⟨hfull, hnone⟩ | ⟨s₃, o, ho, hobj, hnew, -⟩
  · refine .inl ⟨(operands_noRoom _ _ hs h₁ h₂ hs₁ hs₂ hfull).mono (by omega), .inl ?_⟩
    rw [hnone]
    rfl
  right
  obtain ⟨ha₃, hao, -⟩ := hnew.older ha
  obtain ⟨hb₃, hbo, -⟩ := hnew.older hb
  rw [hobj, Option.bind_some]
  dsimp only
  rw [if_neg ho, clearWords_eq]
  -- the rows
  obtain ⟨w₄, hz⟩ := hnew.numAt (List.replicate (n₁.length + n₂.length - 1) 0) (by simp)
  rw [List.length_replicate] at w₄ hz
  set s₄ := putAll (s₃.set (size o) (n₁.length + n₂.length - 1)) (contents o 0)
    (List.replicate (n₁.length + n₂.length - 1) 0)
  have ha₄ := ha₃.other w₄ hao
  have hb₄ := hb₃.other w₄ hbo
  obtain ⟨w₅, h5, hl₅⟩ := mulRows_spec (i := 0) (k := n₂.length - 1) w₄.sound ha₄ hb₄ hz hao hbo
    (by omega) (by rw [List.length_replicate]; omega)
  rw [hlen] at w₅ h5
  rw [List.drop_zero] at h5 hl₅
  rw [List.length_replicate] at hl₅
  set s₅ := mulRows a b o n₁.length (n₂.length - 1) 0 s₄
  generalize mulWords (if same then m₂ else m₁) 0 (m₂.take (n₂.length - 1))
    (List.replicate (n₁.length + n₂.length - 1) 0) = res at h5 hl₅ ⊢
  -- the operands are restored
  obtain ⟨s₆, hs₆⟩ : ∃ s₆, s₆ = if last n₁ ≠ 0 then numNegate s₅ a else s₅ := ⟨_, rfl⟩
  obtain ⟨s₇, hs₇⟩ : ∃ s₇, s₇ = if last n₂ ≠ 0 then numNegate s₆ b else s₆ := ⟨_, rfl⟩
  rw [← hs₆, ← hs₇]
  obtain ⟨w₇, ha₇, hb₇⟩ := operands_restored _ _ hsame w₅.sound hsn w₁.words w₂.words hm₁ hm₂
    (ha₄.other w₅ hao) (hb₄.other w₅ hbo) hl₁ hl₂ hs₆ hs₇
  have h7 : NumAt s₇ o res := h5.ext w₇.ext (by unfold Operands Contents; omega) fun i _ => by
    unfold Operands Contents
    omega
  -- the sign of the product
  obtain ⟨w₈, h8⟩ := negateIf_spec (last n₁ ^^^ last n₂ ≠ 0) w₇.sound h7
  replace w₈ := w₈.mono fun _ _ => Contents.payload
  generalize hs₈ : (if last n₁ ^^^ last n₂ ≠ 0 then numNegate s₇ o else s₇) = s₈ at w₈ h8 ⊢
  generalize hres : (if last n₁ ^^^ last n₂ ≠ 0 then Bignum.numNegate res else res) = res' at h8 ⊢
  have hl₈ : res'.length = n₁.length + n₂.length - 1 := by
    rw [← hres, ← hl₅]
    split_ifs
    · exact length_numNegate
    · rfl
  obtain ⟨w₉, h9⟩ := trimWords_spec (fun w => decide (w = last n₁ ^^^ last n₂)) w₈.sound h8
    (List.length_pos_iff.mp (by omega))
  rw [hl₈] at w₉ h9
  have hwrites : Wrote h sz (fun c i => Operands a b n₁ n₂ c i ∨ Payload o c i) s₃ _ :=
    ((w₄.trans w₅).mono fun _ _ => .inr).trans ((w₇.mono fun _ _ => .inl).trans
      ((w₈.trans w₉).mono fun _ _ => .inr))
  have ha₉ := ha₇.other (w₈.trans w₉) hao
  have hb₉ := hb₇.other (w₈.trans w₉) hbo
  refine ⟨_, o, ho, rfl, (New.made_between (W := Operands a b n₁ n₂) hty wneg hnew hwrites
    (fun c i => ?_) (fun i => ?_) h9 fun hx => ?_).toMade⟩
  · unfold Operands Contents
    omega
  · unfold Operands Contents
    omega
  · exact h₂.restored (h₁.restored (hx.mono fun c i hc => or_assoc.mp hc) ha₉
      (by unfold Contents; omega)) hb₉ (by omega)


/-- **`num_mul`** on the heap. -/
lemma numMul_made {same : Bool} (hsame : same = true ↔ a = b) (hs : Sound h sz s)
    (hty : ty + 1 ∈ s.live) (h₁ : NumAt s a n₁) (h₂ : NumAt s b n₂) (w₁ : WellFormed n₁)
    (w₂ : WellFormed n₂) :
    (NoRoom h sz s (n₁.length + n₂.length + 2) ∧
      (numMul h ty s a b = none ∨ numMul h ty s a b = some (s, 0))) ∨
    ∃ s' r, r ≠ 0 ∧ numMul h ty s a b = some (s', r) ∧
      Made h sz ty s s' r (Bignum.numMul same n₁ n₂) := by
  rw [numMul, h₁.size, h₂.size, Bignum.numMul]
  by_cases hlt : n₂.length < n₁.length
  · rw [if_pos hlt, if_pos hlt, Nat.add_comm n₁.length]
    exact mulOrdered_made (hsame.trans eq_comm) hs hty h₂ h₁ w₂ w₁
  · rw [if_neg hlt, if_neg hlt]
    exact mulOrdered_made hsame hs hty h₁ h₂ w₁ w₂

/-- **Multiplication** of two number objects leaves them unchanged. The product is right unless the
shorter number, or the first one of two equally long ones, is `-2 ^ 64` in two words, or the other
one is the lowest number of its size, and neither is zero. -/
theorem numMul_right_iff (hs : Sound h sz s) (hty : ty + 1 ∈ s.live) (h₁ : NumAt s a n₁)
    (h₂ : NumAt s b n₂) (hne : a ≠ b) (w₁ : WellFormed n₁) (w₂ : WellFormed n₂) :
    (NoRoom h sz s (n₁.length + n₂.length + 2) ∧
      (numMul h ty s a b = none ∨ numMul h ty s a b = some (s, 0))) ∨
    ∃ s' r n, numMul h ty s a b = some (s', r) ∧ NumAt s' r n ∧ NumAt s' a n₁ ∧
      NumAt s' b n₂ ∧ Ext (fun c i => c = ty + 1 ∧ i = 0) s s' ∧
      (WellFormed n ∧ denote n = denote n₁ * denote n₂ ↔
        if n₂.length < n₁.length then Multiplies n₂ n₁ else Multiplies n₁ n₂) := by
  have hsame : false = true ↔ a = b := by simp [hne]
  refine (numMul_made hsame hs hty h₁ h₂ w₁ w₂).imp_right ?_
  rintro ⟨s', r, -, h3, h4⟩
  refine ⟨s', r, _, h3, h4.num, (h4.older h₁).1, (h4.older h₂).1, h4.ext, ?_⟩
  rw [iff_true_intro (numMul_wellFormed w₁ w₂ (by simp)), true_and, Bignum.numMul]
  by_cases hlt : n₂.length < n₁.length
  · rw [if_pos hlt, if_pos hlt, mul_comm]
    exact mulOrdered_right_iff w₂ w₁
  · rw [if_neg hlt, if_neg hlt]
    exact mulOrdered_right_iff w₁ w₂

/-- `-2 ^ 64` is the longer number here, and the lowest one of its size only in two words. -/
theorem numMul_right_iff_long : ∃ s ty a b s' r n, NumAt s a [0, ones, ones] ∧ NumAt s b [3, 0] ∧
    numMul 1 ty s a b = some (s', r) ∧ NumAt s' r n ∧ WellFormed n ∧
      denote n = denote [0, ones, ones] * denote [3, 0] := by
  obtain ⟨s, ty, a, b, hs, hty, -, hne, h₁, h₂, hroom⟩ := exists_numbers [0, ones, ones] [3, 0]
    (by decide) (by decide)
  rcases numMul_right_iff hs hty h₁ h₂ hne ⟨by decide, by decide, by decide⟩
    ⟨by decide, by decide, by decide⟩ with ⟨hf, -⟩ | ⟨s', r, n, h3, h4, -, -, -, h5⟩
  · exact absurd hf (hroom _ (by decide))
  · have h6 := h5.mpr (.inr (.inr ⟨by decide, by decide⟩))
    exact ⟨s, ty, a, b, s', r, n, h₁, h₂, h3, h4, h6⟩

/-- `-2 ^ 64 * 1` is `0`: the number has the words of the zero below its sign. -/
theorem numMul_wrong : ∃ s ty a b s' r, NumAt s a [0, ones] ∧ NumAt s b [1, 0] ∧ a ≠ b ∧
    numMul 1 ty s a b = some (s', r) ∧ NumAt s' r [0, 0] ∧
      denote [0, 0] ≠ denote [0, ones] * denote [1, 0] := by
  obtain ⟨s, ty, a, b, hs, hty, -, hne, h₁, h₂, hroom⟩ := exists_numbers [0, ones] [1, 0]
    (by decide) (by decide)
  have hsame : false = true ↔ a = b := by simp [hne]
  rcases numMul_made hsame hs hty h₁ h₂ ⟨by decide, by decide, by decide⟩
    ⟨by decide, by decide, by decide⟩ with ⟨hf, -⟩ | ⟨s', r, -, h3, h4⟩
  · exact absurd hf (hroom _ (by decide))
  · exact ⟨s, ty, a, b, s', r, h₁, h₂, hne, h3, h4.num, by decide⟩

/-! ### One object as both operands -/

/-- The call returns the number `m`, and `x` has the words `n` afterwards. -/
def Gives (res : Option (HSt × ℕ)) (x : ℕ) (n m : List ℕ) : Prop :=
  ∃ s' r, res = some (s', r) ∧ NumAt s' r m ∧ NumAt s' x n

lemma gives_of_made {call : Option (HSt × ℕ)} (hn : NumAt s x n)
    (h : ∃ s' r, call = some (s', r) ∧ Made h sz ty s s' r res) : Gives call x n res := by
  obtain ⟨s', r, h1, h2⟩ := h
  exact ⟨s', r, h1, h2.num, (h2.older hn).1⟩

/-- **Aliasing**: a number as both operands. It is unchanged afterwards, but the results are those of
the number and a copy of it only if in-place negation does not reach the other operand, or does not
matter to the result. -/
theorem alias_right_iff (ty : Types) (others : HSt → ℕ → Option HSt) (hs : Sound h sz s)
    (hty : ty.numType + 1 ∈ s.live) (hcount : 0 < s.mem (refcount ty.numType))
    (hword : s.mem (refcount ty.numType) < wordMod) (ha : NumAt s a n) (hb : NumAt s b n)
    (hne : a ≠ b) {args args' : ℕ} (hargs : ArgsAt s args a a) (hargs' : ArgsAt s args' a b)
    (w : WellFormed n) :
    (NoRoom h sz s (n.length + n.length + 2) ∨ ∃ m m', Gives (numMul h ty.numType s a a) a n m ∧
      Gives (numMul h ty.numType s a b) a n m' ∧ (m = m' ↔ 0 ≤ denote n ∨ Lowest n)) ∧
    (NoRoom h sz s (n.length + 4) ∨ ∃ s₁ v s₂ v', numLe h ty others s a a = some (s₁, v) ∧
      numLe h ty others s a b = some (s₂, v') ∧ NumAt s₁ a n ∧ (v = v' ↔ denote n ≤ 0)) ∧
    (NoRoom h sz s (n.length + 4) ∨ ∃ m m', Gives (bMinus h ty.numType s args) a n m ∧
      Gives (bMinus h ty.numType s args') a n m' ∧ (m = m' ↔ denote n = 0)) := by
  have h0 := words_ne_nil w
  obtain ⟨wa, ha'⟩ := numNegate_spec hs ha
  obtain ⟨wb, -⟩ := numNegate_spec hs hb
  have hab : NumAt (numNegate s b) a n :=
    ha.ext wb.ext (by unfold Contents; omega) fun i _ => by unfold Contents; omega
  have h0' : Bignum.numNegate n ≠ [] := by
    rw [← List.length_pos_iff, length_numNegate]
    exact List.length_pos_iff.mpr h0
  have hmax : max n.length n.length = n.length := max_self _
  have hmax' : max (Bignum.numNegate n).length n.length = n.length := by
    rw [length_numNegate, max_self]
  -- the sum of the negation with itself, and the difference of the number and itself
  obtain ⟨hwf, hden, hcan⟩ := numAdd_spec (.negate w) (.negate w)
  obtain ⟨hwf', hden', hcan'⟩ := numAdd_spec (.of_wellFormed w) (.negate w)
  rw [denote_negate w] at hden hden'
  refine ⟨?_, ?_, ?_⟩
  · have hsame : true = true ↔ a = a := by simp
    have hcopy : false = true ↔ a = b := by simp [hne]
    rcases numMul_made hsame hs hty ha ha w w with ⟨hf, -⟩ | ⟨s₁, r₁, -, h1, h2⟩
    · exact .inl hf
    rcases numMul_made hcopy hs hty ha hb w w with ⟨hf, -⟩ | ⟨s₂, r₂, -, h3, h4⟩
    · exact .inl hf
    refine .inr ⟨_, _, gives_of_made ha ⟨s₁, r₁, h1, h2⟩, gives_of_made ha ⟨s₂, r₂, h3, h4⟩, ?_⟩
    rw [Bignum.numMul, Bignum.numMul, if_neg (lt_irrefl _), if_neg (lt_irrefl _)]
    exact mulOrdered_same_iff w
  · rcases numLe_made others hs hty ha' ha h0' h0 w.words hcount hword with
      ⟨hf, -⟩ | ⟨s₁, h1, -, -, h2, -⟩
    · exact .inl (hmax' ▸ hf)
    rcases numLe_made others hs hty hab hb h0 h0 w.words hcount hword with
      ⟨hf, -⟩ | ⟨s₂, h3, -⟩
    · exact .inl (hmax ▸ hf)
    refine .inr ⟨s₁, _, s₂, _, h1, h3, ha.ext h2 id fun _ _ => id, ?_⟩
    rw [(denote_sign hwf').2.mpr (by omega), (denote_sign hwf).2, hden]
    omega
  · rcases bMinus_made hs hty hargs ha' ha h0' h0 w.words with ⟨hf, -⟩ | ⟨s₁, r₁, h1, h2⟩
    · exact .inl (hmax' ▸ hf)
    rcases bMinus_made hs hty hargs' hab hb h0 h0 w.words with ⟨hf, -⟩ | ⟨s₂, r₂, h3, h4⟩
    · exact .inl (hmax ▸ hf)
    refine .inr ⟨_, _, gives_of_made ha ⟨s₁, r₁, h1, h2⟩, gives_of_made ha ⟨s₂, r₂, h3, h4⟩, ?_⟩
    constructor
    · intro heq
      rw [heq, hden'] at hden
      omega
    · intro h0
      exact canonical_unique hwf hwf' hcan hcan' (by rw [hden, hden', h0]; rfl)

theorem alias_right_iff_zero : ∃ s ty a b args args', NumAt s a [0, 0] ∧ NumAt s b [0, 0] ∧
    a ≠ b ∧ ArgsAt s args a a ∧ ArgsAt s args' a b ∧
      ∃ m, Gives (bMinus 1 ty s args) a [0, 0] m ∧ Gives (bMinus 1 ty s args') a [0, 0] m := by
  obtain ⟨s, ty, a, b, args, args', hs, hty, hone, hne, ha, hb, hargs, hargs', hroom⟩ :=
    exists_arguments [0, 0] (by decide)
  obtain ⟨-, -, h1⟩ := alias_right_iff ⟨0, ty, 0, 0, 0, 0, 0, 0⟩ (fun s _ => some s) hs hty
    (by rw [hone]; decide) (by rw [hone]; decide) ha hb hne hargs hargs'
    ⟨by decide, by decide, by decide⟩
  rcases h1 with hf | ⟨m, m', h2, h3, h4⟩
  · exact absurd hf (hroom _ (by decide))
  · obtain rfl := h4.mpr rfl
    exact ⟨s, ty, a, b, args, args', ha, hb, hne, hargs, hargs', m, h2, h3⟩

/-- `1 - 1` is `-2` when the two operands are one object. -/
theorem alias_wrong : ∃ s ty a b args args' n n', NumAt s a [1, 0] ∧ NumAt s b [1, 0] ∧ a ≠ b ∧
    ArgsAt s args a a ∧ ArgsAt s args' a b ∧ Gives (bMinus 1 ty s args) a [1, 0] n ∧
      Gives (bMinus 1 ty s args') a [1, 0] n' ∧ denote n = -2 ∧ denote n' = 0 := by
  obtain ⟨s, ty, a, b, args, args', hs, hty, -, hne, ha, hb, hargs, hargs', hroom⟩ :=
    exists_arguments [1, 0] (by decide)
  obtain ⟨-, ha'⟩ := numNegate_spec hs ha
  have hab : NumAt (numNegate s b) a [1, 0] :=
    ha.ext (numNegate_spec hs hb).1.ext (by unfold Contents; omega) fun i _ => by
      unfold Contents
      omega
  rcases bMinus_made hs hty hargs ha' ha (by decide) (by decide) (by decide) with
    ⟨hf, -⟩ | ⟨s₁, r₁, h1, h2⟩
  · exact absurd hf (hroom _ (by decide))
  rcases bMinus_made hs hty hargs' hab hb (by decide) (by decide) (by decide) with
    ⟨hf, -⟩ | ⟨s₂, r₂, h3, h4⟩
  · exact absurd hf (hroom _ (by decide))
  exact ⟨s, ty, a, b, args, args', _, _, ha, hb, hne, hargs, hargs',
    gives_of_made ha ⟨s₁, r₁, h1, h2⟩, gives_of_made ha ⟨s₂, r₂, h3, h4⟩, by decide, by decide⟩

end LispMachine.NumObjMul
