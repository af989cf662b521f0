import LispMachine.NumObjShift
import LispMachine.NumBits

/-!
Bitwise operations on number objects.

The words of the first operand are copied into a new object and combined there with those of the
second one, which the object does not overlap.
-/

namespace LispMachine.NumObjBits

open LispMachine.Memory LispMachine.Alloc LispMachine.Heap LispMachine.HeapFrame
open LispMachine.Object LispMachine.NumHeap LispMachine.NumObj LispMachine.NumObjShift
open LispMachine.Bignum (ones combine trimZeroes)
open LispMachine.BignumWf LispMachine.NumStr LispMachine.NumVal LispMachine.NumBits

variable {h sz ty : ℕ} {s s' : HSt} {a b i k r : ℕ} {n n₁ n₂ : List ℕ} {f : ℕ → ℕ → ℕ}

lemma combineWords_eq (hd : b + (i + k) ≤ r ∨ r + (i + k) ≤ b) : combineWords f r b k i s =
    putAll s (contents r i) (List.zipWith f (readAll s.mem (contents r i) k)
      (readAll s.mem (contents b i) k)) := by
  induction k generalizing i s with
  | zero => rfl
  | succ k ih =>
    have hnext : ∀ c, contents c (i + 1) = contents c i + 1 := fun _ => rfl
    rw [combineWords, ih (by omega), hnext, hnext, setWord,
      readAll_congr (m := s.mem) (x := contents r i + 1)
      fun j _ => by rw [mem_set, if_neg (by omega)],
      readAll_congr (m := s.mem) (x := contents b i + 1)
      fun j _ => by rw [mem_set, if_neg (by unfold contents; omega)], readAll_succ, readAll_succ]
    rfl

/-- The first words of a number are combined with those of another one. -/
lemma combineWords_spec (f : ℕ → ℕ → ℕ) (hs : Sound h sz s) (hr : NumAt s r n) (hb : NumAt s b n₂)
    (hne : b ≠ r) (hk : k ≤ n.length) (hk₂ : k ≤ n₂.length) :
    Wrote h sz (Payload r) s (combineWords f r b k 0 s) ∧
      NumAt (combineWords f r b k 0 s) r (List.zipWith f (n.take k) (n₂.take k) ++ n.drop k) := by
  have happ := apart_contents hs hb.live hr.live hne (j := k) (k := k)
    (by have := hb.fits; omega) (by have := hr.fits; omega)
  have hlen : (List.zipWith f (n.take k) (n₂.take k)).length = k := by
    rw [List.length_zipWith, List.length_take, List.length_take]
    omega
  rw [combineWords_eq (by omega), hr.slice (by omega), hb.slice (by omega), List.drop_zero,
    List.drop_zero]
  have hin : 0 + (List.zipWith f (n.take k) (n₂.take k)).length ≤ n.length := by omega
  obtain ⟨h1, h2⟩ := hr.putAt hs hin
  rw [hlen, List.take_zero, List.nil_append, Nat.zero_add] at h2
  exact ⟨h1, h2⟩



/-- The first words of two numbers, combined. -/
lemma zipWith_take (hle : min n₁.length n₂.length ≤ k) :
    List.zipWith f (n₁.take k) (n₂.take k) = List.zipWith f n₁ n₂ := by
  rw [← List.take_zipWith, List.take_of_length_le (by rwa [List.length_zipWith])]

/-- **`num_or`**, **`num_xor`** on the heap. -/
lemma numCombine_made (f : ℕ → ℕ → ℕ) (hs : Sound h sz s) (hty : ty + 1 ∈ s.live)
    (h₁ : NumAt s a n₁) (h₂ : NumAt s b n₂) :
    (NoRoom h sz s (n₁.length + 3) ∧ numCombine f h ty s a b = none) ∨
      ∃ s' r, numCombine f h ty s a b = some (s', r) ∧
        Made h sz ty s s' r (combine f n₁ (if n₁.length < n₂.length then n₁ else n₂)) := by
  have hother : NumAt s (if n₁.length < n₂.length then a else b)
      (if n₁.length < n₂.length then n₁ else n₂) := by
    split_ifs
    · exact h₁
    · exact h₂
  have hle : (if n₁.length < n₂.length then n₁ else n₂).length ≤ n₁.length := by
    split_ifs with hlt
    · exact le_rfl
    · exact not_lt.mp hlt
  rw [numCombine]
  dsimp only
  rw [h₁.size, h₂.size, hother.size]
  generalize (if n₁.length < n₂.length then a else b) = c at hother ⊢
  generalize (if n₁.length < n₂.length then n₁ else n₂) = m at hother hle ⊢
  rcases copy_spec n₁.length hs hty h₁ (Nat.lt_of_succ_lt (h₁.length_lt hs)) le_rfl with
    ⟨hfull, hnone⟩ | ⟨s₁, o, ho, hobj, hnew, hnum⟩
  · exact .inl ⟨hfull, by rw [hnone]; rfl⟩
  right
  obtain ⟨hother', hne, -⟩ := hnew.older hother
  obtain ⟨hw, hres⟩ := combineWords_spec f hnew.sound hnum hother' hne hle le_rfl
  refine ⟨combineWords f o c m.length 0 s₁, o, ?_, (hnew.made hs hty hw ?_).toMade⟩
  · rw [hobj, Option.bind_some]
    exact if_neg ho
  · rwa [zipWith_take (min_le_right ..)] at hres

/-- **`num_and`** on the heap. -/
lemma numAnd_made (hs : Sound h sz s) (hty : ty + 1 ∈ s.live) (h₁ : NumAt s a n₁)
    (h₂ : NumAt s b n₂) (w₁ : WellFormed n₁) (w₂ : WellFormed n₂) :
    (NoRoom h sz s (min n₁.length n₂.length + 4) ∧ numAnd h ty s a b = none) ∨
      ∃ s' r, numAnd h ty s a b = some (s', r) ∧
        Made h sz ty s s' r (Bignum.numAnd n₁ n₂) := by
  have hfits := h₁.fits
  have hlive := hs.bounds h₁.live
  have hsp : addrSpace + 5 < wordMod := by decide
  have hmin := Nat.min_le_left n₁.length n₂.length
  rw [numAnd]
  dsimp only
  rw [h₁.size, h₂.size, wadd_eq (by omega)]
  rcases copyPart_spec (min n₁.length n₂.length + 1) hs hty h₁ (by omega) hmin (by omega) with
    ⟨hfull, hnone⟩ | ⟨s₁, o, ho, hobj, hnew, hnum⟩
  · exact .inl ⟨hfull, by rw [hnone]; rfl⟩
  right
  obtain ⟨h₂', hne, -⟩ := hnew.older h₂
  -- the words that both numbers have, and a zero
  have hlen := List.length_take_of_le hmin
  obtain ⟨w₁', hres⟩ := combineWords_spec (· &&& ·) hnew.sound hnum h₂' hne hlen.ge
    (Nat.min_le_right ..)
  rw [List.drop_of_length_le hlen.le, List.append_nil, List.take_take, min_self,
    zipWith_take le_rfl] at hres
  obtain ⟨s₃, happ, w₂', hres₂⟩ := append_spec (v := 0) w₁'.sound hres (by
    have hroom := hnew.room
    rw [List.length_zipWith, w₁'.memSz _ hnew.mem]
    omega)
  rw [← object_common] at hres₂
  obtain ⟨w₃', hres₃⟩ := trimZeroWords_spec w₂'.sound hres₂ (Nat.succ_pos _)
  rw [← numAnd_eq w₁ w₂] at hres₃
  refine ⟨_, o, ?_, (hnew.made hs hty ((w₁'.trans w₂').trans w₃') hres₃).toMade⟩
  rw [hobj, Option.bind_some]
  dsimp only
  rw [if_neg ho, happ, Option.bind_some]
  exact if_neg ho

/-! ### The results -/

/-- The call returns a new well-formed number, which is as `P` says. Of the older objects, only the
references to the type have changed. -/
def Returns (ty : ℕ) (s : HSt) (call : Option (HSt × ℕ)) (P : List ℕ → Prop) : Prop :=
  ∃ s' r n, call = some (s', r) ∧ r + 1 ∉ s.live ∧ NumAt s' r n ∧ WellFormed n ∧
    Ext (fun c i => c = ty + 1 ∧ i = 0) s s' ∧ P n

lemma returns_of_made {call : Option (HSt × ℕ)} {P : List ℕ → Prop} (hwf : WellFormed n)
    (hP : P n) (h : ∃ s' r, call = some (s', r) ∧ Made h sz ty s s' r n) :
    Returns ty s call P := by
  obtain ⟨s', r, h1, h2⟩ := h
  exact ⟨s', r, n, h1, h2.fresh, h2.num, hwf, h2.ext, hP⟩

/-- **Or, exclusive or**: the values are those of the words without an end just where `Ors` and
`Xors` hold. -/
theorem orXor_right_iff (hs : Sound h sz s) (hty : ty + 1 ∈ s.live) (h₁ : NumAt s a n₁)
    (h₂ : NumAt s b n₂) (w₁ : WellFormed n₁) (w₂ : WellFormed n₂) :
    (NoRoom h sz s (n₁.length + 3) ∨ Returns ty s (numOr h ty s a b)
      fun n => denote n = Int.lor (denote n₁) (denote n₂) ↔ Ors n₁ n₂) ∧
    (NoRoom h sz s (n₁.length + 3) ∨ Returns ty s (numXor h ty s a b)
      fun n => denote n = Int.xor (denote n₁) (denote n₂) ↔ Xors n₁ n₂) := by
  constructor
  · refine (numCombine_made (· ||| ·) hs hty h₁ h₂).imp And.left ?_
    exact returns_of_made (numOr_wellFormed w₁ w₂) (numOr_right_iff w₁ w₂)
  · refine (numCombine_made (· ^^^ ·) hs hty h₁ h₂).imp And.left ?_
    exact returns_of_made (numXor_wellFormed w₁ w₂) (numXor_right_iff w₁ w₂)

theorem orXor_right_iff_long : ∃ s ty a b, NumAt s a [5, 7, 0] ∧ NumAt s b [3, 0] ∧
    (Returns ty s (numOr 1 ty s a b) fun n =>
      denote n = Int.lor (denote [5, 7, 0]) (denote [3, 0])) ∧
    Returns ty s (numXor 1 ty s a b) fun n =>
      denote n = Int.xor (denote [5, 7, 0]) (denote [3, 0]) := by
  obtain ⟨s, ty, a, b, hs, hty, -, -, h₁, h₂, hroom⟩ := exists_numbers [5, 7, 0] [3, 0]
    (by decide) (by decide)
  obtain ⟨hor, hxor⟩ := orXor_right_iff hs hty h₁ h₂ ⟨by decide, by decide, by decide⟩
    ⟨by decide, by decide, by decide⟩
  obtain ⟨s₁, r₁, n, h3, h4, h5, h6, h7, h8⟩ := hor.resolve_left (hroom _ (by decide))
  obtain ⟨s₂, r₂, m, h3', h4', h5', h6', h7', h8'⟩ := hxor.resolve_left (hroom _ (by decide))
  refine ⟨s, ty, a, b, h₁, h₂, ⟨s₁, r₁, n, h3, h4, h5, h6, h7, h8.mpr ?_⟩,
    s₂, r₂, m, h3', h4', h5', h6', h7', h8'.mpr ?_⟩
  · rw [Ors, if_neg (by decide)]
    exact .inl (by decide)
  · rw [Xors, if_neg (by decide)]
    exact .inl (by decide)

/-- A first number that is shorter is returned as it is, or as `0`: neither operation is
commutative. -/
theorem orXor_wrong : ∃ s ty a b, NumAt s a [1, 0] ∧ NumAt s b [0, 1, 0] ∧
    (Returns ty s (numOr 1 ty s a b) fun n =>
      denote n ≠ Int.lor (denote [1, 0]) (denote [0, 1, 0]) ∧ n = [1, 0]) ∧
    (Returns ty s (numOr 1 ty s b a) fun n => n = [1, 1, 0]) ∧
    (Returns ty s (numXor 1 ty s a b) fun n =>
      denote n ≠ Int.xor (denote [1, 0]) (denote [0, 1, 0]) ∧ n = [0, 0]) ∧
    Returns ty s (numXor 1 ty s b a) fun n => n = [1, 1, 0] := by
  obtain ⟨s, ty, a, b, hs, hty, -, -, h₁, h₂, hroom⟩ := exists_numbers [1, 0] [0, 1, 0]
    (by decide) (by decide)
  refine ⟨s, ty, a, b, h₁, h₂, ?_, ?_, ?_, ?_⟩
  · exact returns_of_made ⟨by decide, by decide, by decide⟩ ⟨by decide, rfl⟩
      ((numCombine_made (· ||| ·) hs hty h₁ h₂).resolve_left fun hf => hroom _ (by decide) hf.1)
  · exact returns_of_made ⟨by decide, by decide, by decide⟩ rfl
      ((numCombine_made (· ||| ·) hs hty h₂ h₁).resolve_left fun hf => hroom _ (by decide) hf.1)
  · exact returns_of_made ⟨by decide, by decide, by decide⟩ ⟨by decide, rfl⟩
      ((numCombine_made (· ^^^ ·) hs hty h₁ h₂).resolve_left fun hf => hroom _ (by decide) hf.1)
  · exact returns_of_made ⟨by decide, by decide, by decide⟩ rfl
      ((numCombine_made (· ^^^ ·) hs hty h₂ h₁).resolve_left fun hf => hroom _ (by decide) hf.1)

/-- **And**: the result is well-formed, and its value is that of the words without an end just where
`Ands` holds. -/
theorem and_right_iff (hs : Sound h sz s) (hty : ty + 1 ∈ s.live) (h₁ : NumAt s a n₁)
    (h₂ : NumAt s b n₂) (w₁ : WellFormed n₁) (w₂ : WellFormed n₂) :
    NoRoom h sz s (min n₁.length n₂.length + 4) ∨ Returns ty s (numAnd h ty s a b)
      fun n => denote n = Int.land (denote n₁) (denote n₂) ↔ Ands n₁ n₂ := by
  refine (numAnd_made hs hty h₁ h₂ w₁ w₂).imp And.left ?_
  exact returns_of_made (numAnd_wellFormed w₁ w₂) (numAnd_right_iff w₁ w₂)

theorem and_right_iff_words : ∃ s ty a b, NumAt s a [5, 7, 0] ∧ NumAt s b [3, 0] ∧
    Returns ty s (numAnd 1 ty s a b) fun n =>
      denote n = Int.land (denote [5, 7, 0]) (denote [3, 0]) := by
  obtain ⟨s, ty, a, b, hs, hty, -, -, h₁, h₂, hroom⟩ := exists_numbers [5, 7, 0] [3, 0]
    (by decide) (by decide)
  obtain ⟨s', r, n, h3, h4, h5, h6, h7, h8⟩ := (and_right_iff hs hty h₁ h₂
    ⟨by decide, by decide, by decide⟩ ⟨by decide, by decide, by decide⟩).resolve_left
    (hroom _ (by decide))
  refine ⟨s, ty, a, b, h₁, h₂, s', r, n, h3, h4, h5, h6, h7, h8.mpr (.inr ⟨fun j hj => ?_, ?_⟩)⟩
  · have hzero : wordAt [3, 0] j = 0 := wordAt_of_le ⟨by decide, by decide, by decide⟩
      ((by decide : 2 - 1 ≤ 2).trans hj)
    rw [hzero, Nat.and_zero]
  · rintro ⟨m, hm, -, hfull, -⟩
    have hzero : wordAt [3, 0] m = 0 := wordAt_of_le ⟨by decide, by decide, by decide⟩ hm
    rw [hzero] at hfull
    exact absurd hfull (by decide)

/-- `-2 ^ 128` and `-1` have nothing in common but what comes behind the words of the shorter
one. -/
theorem and_wrong : ∃ s ty a b, NumAt s a [0, 0, ones] ∧ NumAt s b [ones, ones] ∧
    Returns ty s (numAnd 1 ty s a b) fun n =>
      denote n ≠ Int.land (denote [0, 0, ones]) (denote [ones, ones]) ∧ n = [0, 0] := by
  obtain ⟨s, ty, a, b, hs, hty, -, -, h₁, h₂, hroom⟩ := exists_numbers [0, 0, ones] [ones, ones]
    (by decide) (by decide)
  refine ⟨s, ty, a, b, h₁, h₂, ?_⟩
  exact returns_of_made ⟨by decide, by decide, by decide⟩ ⟨by decide, rfl⟩
    ((numAnd_made hs hty h₁ h₂ ⟨by decide, by decide, by decide⟩
      ⟨by decide, by decide, by decide⟩).resolve_left fun hf => hroom _ (by decide) hf.1)

end LispMachine.NumObjBits
