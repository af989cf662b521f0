import LispMachine.Lib.Compare
import LispMachine.SetsCmp

/-!
The byte and string functions of `util.c`.

Memory is seen here as bytes; a word is eight of them from its address on, wherever that is. The
copy of `memcpy` does not move on from the first word or byte of either region, and the two
comparisons of `strncmp` are the same one.
-/

namespace LispMachine.Bytes

open LispMachine.Memory LispMachine.Lib.Compare

/-- The contents of every byte. -/
abbrev ByteMem := ℕ → Fin 256

variable {m m' : ByteMem} {dest src n i k x : ℕ} {c : Fin 256}

def ByteMem.set (m : ByteMem) (a : ℕ) (c : Fin 256) : ByteMem := fun x => if x = a then c else m x

/-- The value of the `k` bytes at `a`. -/
def load (m : ByteMem) (a : ℕ) : ℕ → ℕ
  | 0 => 0
  | k + 1 => m a + 256 * load m (a + 1) k

/-- Storing a value in the `k` bytes at `a`. -/
def store (m : ByteMem) (a v : ℕ) : ℕ → ByteMem
  | 0 => m
  | k + 1 => store (m.set a (Fin.ofNat 256 v)) (a + 1) (v / 256) k

def wordSize : ℕ := 8

/-! ### The functions -/

/-- The loop of `memcpy` that copies `lim` words. -/
def wordLoop (dest src : ℕ) : ℕ → ByteMem → ByteMem
  | 0, m => m
  | lim + 1, m => wordLoop dest src lim (store m dest (load m src wordSize) wordSize)

/-- The loop of `memcpy` that copies `rem` bytes. -/
def byteLoop (dest src : ℕ) : ℕ → ByteMem → ByteMem
  | 0, m => m
  | rem + 1, m => byteLoop dest src rem (m.set dest (m src))

/-- `memcpy` -/
def memcpy (m : ByteMem) (dest src n : ℕ) : ByteMem × ℕ :=
  let lim := n / wordSize
  let rem := n % wordSize
  (byteLoop dest src rem (wordLoop dest src lim m), dest)

/-- The loop of `memset`, from the byte `i` on. -/
def memsetLoop (str : ℕ) (c : Fin 256) : ℕ → ℕ → ByteMem → ByteMem
  | 0, _, m => m
  | n + 1, i, m => memsetLoop str c n (i + 1) (m.set (str + i) c)

/-- `memset` -/
def memset (m : ByteMem) (str : ℕ) (c : ℤ) (n : ℕ) : ByteMem × ℕ :=
  (memsetLoop str (Fin.ofNat 256 (c % 256).toNat) n 0 m, str)

/-- The loop of `strncmp`, from the byte `i` on. Its second comparison is the first one again. -/
def strncmpLoop (m : ByteMem) (s1 s2 : ℕ) : ℕ → ℕ → ℤ
  | 0, _ => 0
  | n + 1, i =>
    if m (s1 + i) > m (s2 + i) then -1
    else if m (s1 + i) > m (s2 + i) then 1
    else strncmpLoop m s1 s2 n (i + 1)

/-- `strncmp` -/
def strncmp (m : ByteMem) (s1 s2 len : ℕ) : ℤ := strncmpLoop m s1 s2 len 0

/-- The loop of `memcmp`, from the word `i` on. -/
def memcmpLoop (m : Mem) (m1 m2 : ℕ) : ℕ → ℕ → ℤ
  | 0, _ => 0
  | n + 1, i =>
    if m (m1 + i) > m (m2 + i) then -1
    else if m (m1 + i) < m (m2 + i) then 1
    else memcmpLoop m m1 m2 n (i + 1)

/-- `memcmp` -/
def memcmp (m : Mem) (m1 m2 len : ℕ) : ℤ := memcmpLoop m m1 m2 len 0

/-! ### Copying -/

/-- The regions of `n` bytes do not overlap. -/
def Apart (dest src n : ℕ) : Prop := dest + n ≤ src ∨ src + n ≤ dest

/-- The memory with the `k` bytes at `src` also at `dest`. -/
def copied (m : ByteMem) (dest src k : ℕ) : ByteMem := fun x =>
  if dest ≤ x ∧ x < dest + k then m (src + (x - dest)) else m x

lemma set_apply (m : ByteMem) (a : ℕ) (c : Fin 256) (x : ℕ) :
    m.set a c x = if x = a then c else m x := rfl

lemma copied_out (h : x < dest ∨ dest + k ≤ x) : copied m dest src k x = m x :=
  if_neg (by omega)

lemma copied_in (h : i < k) : copied m dest src k (dest + i) = m (src + i) := by
  rw [copied, if_pos (by omega), Nat.add_sub_cancel_left]

lemma load_congr (h : ∀ i < k, m (src + i) = m' (src + i)) : load m src k = load m' src k := by
  induction k generalizing src with
  | zero => rfl
  | succ k ih =>
    have h0 : m src = m' src := h 0 (Nat.succ_pos k)
    rw [load, load, h0, ih fun i hi => ?_]
    rw [Nat.add_right_comm]
    exact h (i + 1) (by omega)

/-- **A value** that is loaded is stored again byte by byte. -/
lemma store_load (m m' : ByteMem) (dest src k x : ℕ) : store m' dest (load m src k) k x =
    if dest ≤ x ∧ x < dest + k then m (src + (x - dest)) else m' x := by
  induction k generalizing dest src m' with
  | zero => exact (if_neg (by omega)).symm
  | succ k ih =>
    have hlow : Fin.ofNat 256 (m src + 256 * load m (src + 1) k) = m src := by
      apply Fin.ext
      change (m src + 256 * load m (src + 1) k) % 256 = m src
      have := (m src).isLt
      omega
    have hhigh : (m src + 256 * load m (src + 1) k) / 256 = load m (src + 1) k := by
      have := (m src).isLt
      omega
    rw [load, store, hlow, hhigh, ih, set_apply]
    by_cases hx : x = dest
    · rw [if_neg (by omega), if_pos hx, if_pos (by omega), hx, Nat.sub_self]
      rfl
    · rw [if_neg hx]
      by_cases hin : dest + 1 ≤ x ∧ x < dest + 1 + k
      · have hplace : src + 1 + (x - (dest + 1)) = src + (x - dest) := by omega
        rw [if_pos hin, if_pos (by omega), hplace]
      · rw [if_neg hin, if_neg (by omega)]

/-- One word is copied, however often. -/
lemma wordLoop_succ (h : Apart dest src wordSize) (lim : ℕ) (m : ByteMem) :
    wordLoop dest src (lim + 1) m = copied m dest src wordSize := by
  have hstore (m' : ByteMem) : store m' dest (load m src wordSize) wordSize = fun x =>
      if dest ≤ x ∧ x < dest + wordSize then m (src + (x - dest)) else m' x :=
    funext fun x => store_load m m' dest src wordSize x
  have hload : load (copied m dest src wordSize) src wordSize = load m src wordSize := by
    refine load_congr fun i hi => copied_out ?_
    rcases h with h | h <;> omega
  have hagain : store (copied m dest src wordSize) dest
      (load (copied m dest src wordSize) src wordSize) wordSize = copied m dest src wordSize := by
    rw [hload, hstore]
    funext x
    by_cases hx : dest ≤ x ∧ x < dest + wordSize
    · rw [if_pos hx, copied, if_pos hx]
    · rw [if_neg hx]
  have hloop (lim : ℕ) : wordLoop dest src lim (copied m dest src wordSize) =
      copied m dest src wordSize := by
    induction lim with
    | zero => rfl
    | succ lim ih => rw [wordLoop, hagain, ih]
  have hfirst : store m dest (load m src wordSize) wordSize = copied m dest src wordSize := hstore m
  rw [wordLoop, hfirst, hloop]

/-- A byte that is there already is copied without effect. -/
lemma byteLoop_of_eq (h : m dest = m src) (rem : ℕ) : byteLoop dest src rem m = m := by
  have hset : m.set dest (m src) = m := by
    funext x
    rw [set_apply]
    split_ifs with hx
    · rw [hx, h]
    · rfl
  induction rem with
  | zero => rfl
  | succ rem ih => rw [byteLoop, hset, ih]

/-- One byte is copied, however often. -/
lemma byteLoop_succ (h : dest ≠ src) (rem : ℕ) (m : ByteMem) :
    byteLoop dest src (rem + 1) m = copied m dest src 1 := by
  have hset : m.set dest (m src) = copied m dest src 1 := by
    funext x
    rw [set_apply, copied]
    by_cases hx : x = dest
    · rw [if_pos hx, if_pos (by omega), hx, Nat.sub_self]
      rfl
    · rw [if_neg hx, if_neg (by omega)]
  rw [byteLoop, hset]
  refine byteLoop_of_eq ?_ rem
  rw [copied_out (show src < dest ∨ dest + 1 ≤ src by omega)]
  exact copied_in Nat.one_pos

/-- How many bytes `memcpy` copies. -/
def reached (n : ℕ) : ℕ := if wordSize ≤ n then wordSize else if 0 < n then 1 else 0

/-- **What** `memcpy` does: it copies the first word, or the first byte of less than a word. -/
lemma memcpy_eq (h : Apart dest src n) :
    memcpy m dest src n = (copied m dest src (reached n), dest) := by
  refine congrArg (Prod.mk · dest) ?_
  rw [reached]
  by_cases hn : wordSize ≤ n
  · rw [if_pos hn]
    have hword : Apart dest src wordSize := by
      rcases h with h | h
      · exact .inl (by omega)
      · exact .inr (by omega)
    obtain ⟨lim, hlim⟩ := Nat.exists_eq_succ_of_ne_zero (Nat.div_pos hn (by decide)).ne'
    rw [hlim, wordLoop_succ hword]
    refine byteLoop_of_eq ?_ _
    have hsrc : src < dest ∨ dest + wordSize ≤ src := by
      rcases hword with h | h <;> unfold wordSize at h ⊢ <;> omega
    rw [copied_out hsrc]
    exact copied_in (i := 0) (by decide)
  · have hlt : n < wordSize := not_le.mp hn
    rw [if_neg hn, Nat.div_eq_of_lt hlt, Nat.mod_eq_of_lt hlt]
    cases n with
    | zero =>
      funext x
      exact (copied_out (show x < dest ∨ dest + 0 ≤ x by omega)).symm
    | succ n =>
      rw [if_pos (Nat.succ_pos n)]
      refine byteLoop_succ ?_ n m
      rintro rfl
      rcases h with h | h <;> omega

/-- The `n` bytes at `src` have been copied to `dest`, and nothing else has changed. -/
structure Copies (m m' : ByteMem) (dest src n : ℕ) : Prop where
  copied : ∀ i < n, m' (dest + i) = m (src + i)
  kept : ∀ x, x < dest ∨ dest + n ≤ x → m' x = m x

/-- **`memcpy`** copies if and only if the bytes behind the first word, or behind the first byte of
less than a word, are the same already. -/
theorem memcpy_copies_iff (h : Apart dest src n) :
    (Copies m (memcpy m dest src n).1 dest src n ∧ (memcpy m dest src n).2 = dest) ↔
      ∀ i, reached n ≤ i → i < n → m (dest + i) = m (src + i) := by
  have hle : reached n ≤ n := by
    unfold reached
    split_ifs <;> omega
  rw [memcpy_eq h]
  constructor
  · rintro ⟨hc, -⟩ i hi hn
    have hout : copied m dest src (reached n) (dest + i) = m (dest + i) := copied_out (by omega)
    exact hout.symm.trans (hc.copied i hn)
  · intro hsame
    refine ⟨⟨fun i hn => ?_, fun x hx => copied_out (hx.imp_right fun hx => by omega)⟩, rfl⟩
    by_cases hi : i < reached n
    · exact copied_in hi
    · exact (copied_out (by omega)).trans (hsame i (by omega) hn)

/-- A word is copied. -/
theorem memcpy_copies_word :
    Copies (fun x => Fin.ofNat 256 x) (memcpy (fun x => Fin.ofNat 256 x) 0 8 8).1 0 8 8 ∧
      (memcpy (fun x => Fin.ofNat 256 x) 0 8 8).2 = 0 := by
  have hapart : Apart 0 8 8 := .inl (by decide)
  exact (memcpy_copies_iff hapart).mpr fun i h8 hi => absurd hi (not_lt.mpr h8)

/-- Of two bytes the second one is not copied. -/
theorem not_memcpy_copies : ¬ ∀ (m : ByteMem) (dest src n : ℕ), Apart dest src n →
    Copies m (memcpy m dest src n).1 dest src n ∧ (memcpy m dest src n).2 = dest := by
  intro h
  have h1 := (h (fun x => Fin.ofNat 256 x) 0 8 2 (.inl (by decide))).1.copied 1 (by decide)
  exact absurd h1 (by decide)

/-- **`memset`** fills the region. -/
theorem memset_fills (m : ByteMem) (str : ℕ) (c : ℤ) (n x : ℕ) : (memset m str c n).1 x =
    if str ≤ x ∧ x < str + n then Fin.ofNat 256 (c % 256).toNat else m x := by
  have hloop (n i : ℕ) (m : ByteMem) (v : Fin 256) : memsetLoop str v n i m x =
      if str + i ≤ x ∧ x < str + i + n then v else m x := by
    induction n generalizing i m with
    | zero => exact (if_neg (by omega)).symm
    | succ n ih =>
      rw [memsetLoop, ih, set_apply]
      split_ifs <;> first | rfl | omega
  change memsetLoop str _ n 0 m x = _
  rw [hloop, Nat.add_zero]

/-! ### Comparing -/

/-- `strncmp` tells whether there is a place where the first string is larger. -/
lemma strncmpLoop_eq (m : ByteMem) (s1 s2 n i : ℕ) : strncmpLoop m s1 s2 n i =
    if ∃ j < n, m (s1 + i + j) > m (s2 + i + j) then -1 else 0 := by
  induction n generalizing i with
  | zero => exact (if_neg (by simp)).symm
  | succ n ih =>
    rw [strncmpLoop, ih]
    have hiff : (∃ j < n + 1, m (s1 + i + j) > m (s2 + i + j)) ↔
        m (s1 + i) > m (s2 + i) ∨ ∃ j < n, m (s1 + (i + 1) + j) > m (s2 + (i + 1) + j) := by
      constructor
      · rintro ⟨j, hj, hgt⟩
        cases j with
        | zero => exact .inl hgt
        | succ j => exact .inr ⟨j, by omega, by convert hgt using 2 <;> omega⟩
      · rintro (hgt | ⟨j, hj, hgt⟩)
        · exact ⟨0, by omega, hgt⟩
        · exact ⟨j + 1, by omega, by convert hgt using 2 <;> omega⟩
    by_cases hgt : m (s1 + i) > m (s2 + i)
    · rw [if_pos hgt, if_pos (hiff.mpr (.inl hgt))]
    · rw [if_neg hgt, if_neg hgt]
      simp only [hiff, hgt, false_or]

/-- The bytes of the string at `s`. -/
def string (m : ByteMem) (s : ℕ) : ℕ → Fin 256 := fun i => m (s + i)

lemma strncmp_eq (m : ByteMem) (s1 s2 len : ℕ) : strncmp m s1 s2 len =
    if ∃ i < len, string m s2 i < string m s1 i then -1 else 0 :=
  strncmpLoop_eq m s1 s2 len 0

variable {s1 s2 len : ℕ}

lemma strncmp_of_agree (h : ∀ i < len, string m s1 i = string m s2 i) :
    strncmp m s1 s2 len = 0 := by
  rw [strncmp_eq, if_neg]
  rintro ⟨i, hi, hlt⟩
  exact absurd (h i hi) hlt.ne'

/-- The value is right if and only if the first difference, if there is one, has the larger byte in
the first string. -/
lemma strncmp_right_iff : Orders (string m s1) (string m s2) len (strncmp m s1 s2 len) ↔
    ∀ i, FirstDiff (string m s1) (string m s2) len i → string m s2 i < string m s1 i := by
  rcases agree_or_firstDiff (string m s1) (string m s2) len with ha | ⟨i, hi⟩
  · rw [orders_of_agree ha]
    exact iff_of_true (strncmp_of_agree ha) fun i hi => absurd (ha i hi.lt) hi.ne
  · rw [orders_of_firstDiff hi, strncmp_eq]
    constructor
    · intro hv j hj
      obtain rfl := hi.unique hj
      by_contra hlt
      rw [if_neg hlt] at hv
      split_ifs at hv
      omega
    · intro hlt
      rw [if_pos ⟨i, hi.lt, hlt i hi⟩, if_pos (hlt i hi)]

/-- `strncmp` orders the strings, and swapping them flips the sign. -/
structure IsOrder (m : ByteMem) (s1 s2 len : ℕ) : Prop where
  right : Orders (string m s1) (string m s2) len (strncmp m s1 s2 len)
  flips : strncmp m s2 s1 len = -strncmp m s1 s2 len

/-- **`strncmp`** gives the right value if and only if the first of the `len` bytes that differs, if
there is one, is larger in the first string; the sign flips as well if and only if the bytes
agree. -/
theorem strncmp_order_iff (m : ByteMem) (s1 s2 len : ℕ) :
    (Orders (string m s1) (string m s2) len (strncmp m s1 s2 len) ↔
      ∀ i, FirstDiff (string m s1) (string m s2) len i → string m s2 i < string m s1 i) ∧
    (IsOrder m s1 s2 len ↔ ∀ i < len, string m s1 i = string m s2 i) := by
  refine ⟨strncmp_right_iff, fun h => ?_, fun h => ⟨?_, ?_⟩⟩
  · have hswap := h.flips ▸ h.right.swap
    rcases agree_or_firstDiff (string m s1) (string m s2) len with ha | ⟨i, hi⟩
    · exact ha
    · exact absurd (strncmp_right_iff.mp h.right i hi)
        (strncmp_right_iff.mp hswap i hi.symm).not_gt
  · exact (orders_of_agree h).mpr (strncmp_of_agree h)
  · rw [strncmp_of_agree h, strncmp_of_agree fun i hi => (h i hi).symm]
    rfl

/-- With a smaller first byte the strings are not told apart. -/
theorem not_strncmp_order : ¬ ∀ (m : ByteMem) (s1 s2 len : ℕ),
    IsOrder m s1 s2 len := by
  intro h
  have h1 := (h (fun x => Fin.ofNat 256 x) 0 1 1).right.same.mp (by decide) 0 (by decide)
  exact absurd h1 (by decide)

/-- **`memcmp`** orders the words. -/
theorem memcmp_orders (m : Mem) (m1 m2 len : ℕ) :
    Orders (fun i => m (m1 + i)) (fun i => m (m2 + i)) len (memcmp m m1 m2 len) := by
  have h := orders_loop (f := fun i => m (m1 + i)) (g := fun i => m (m2 + i))
    (memcmpLoop m m1 m2) (fun i => rfl) (fun n i => rfl) len 0
  simp only [Nat.zero_add] at h
  exact h

/-- **`obj_cmp`** orders the words of objects of one size. -/
theorem objCmp_orders (m : Mem) {p₁ p₂ : ℕ} (h : m (Object.size p₁) = m (Object.size p₂)) :
    Orders (fun i => m (Object.contents p₁ i)) (fun i => m (Object.contents p₂ i))
      (m (Object.size p₁)) (Sets.objCmp m p₁ p₂) := by
  have hstep (n i : ℕ) : Sets.objCmpLoop m p₁ p₂ (n + 1) i =
      if m (Object.contents p₂ i) < m (Object.contents p₁ i) then -1
      else if m (Object.contents p₁ i) < m (Object.contents p₂ i) then 1
      else Sets.objCmpLoop m p₁ p₂ n (i + 1) := by
    rw [Sets.objCmpLoop]
    split_ifs <;> first | rfl | omega
  have hloop := orders_loop (f := fun i => m (Object.contents p₁ i))
    (g := fun i => m (Object.contents p₂ i)) (Sets.objCmpLoop m p₁ p₂) (fun i => rfl) hstep
    (m (Object.size p₁)) 0
  simp only [Nat.zero_add] at hloop
  rw [Sets.objCmp, if_neg h.not_lt, if_neg h.not_gt]
  exact hloop

end LispMachine.Bytes
