import LispMachine.KernelReturn
import LispMachine.KernelStr
import LispMachine.Lib.Digits

/-!
Which numbers `word_to_str` of `kernel` formats as `uintn_to_str` does.

Its first loop puts the digits into the buffer from the lowest one on, and its second one turns them
around.
-/

namespace LispMachine.KernelFormat

open LispMachine.Memory LispMachine.Asm LispMachine.AsmRef LispMachine.MachineStep
open LispMachine.MachineRun LispMachine.Routine LispMachine.Body LispMachine.KernelCalls
open LispMachine.KernelReturn (wordAt wordAt_lt)
open LispMachine.KernelStr LispMachine.Bignum Relation
open LispMachine.Machine hiding ldr str shf dvu

variable {Z : Zone} {c c' c₀ : Cpu} {q : ℕ} {Q : Cpu → Prop} {ρ : ℕ → ℕ} {m : Mem}
variable {xs ys ds : List ℕ} {a b buf base d f g i k n num r t v x y z : ℕ}

/-! ### Words in memory -/

lemma putRecord_append (a : ℕ) (xs ys : List ℕ) (m : Mem) :
    putRecord a (xs ++ ys) m = putRecord (a + xs.length) ys (putRecord a xs m) := by
  induction xs generalizing a m with
  | nil => rfl
  | cons x xs ih => rw [List.cons_append, putRecord, ih, putRecord, List.length_cons,
      Nat.add_assoc, Nat.add_comm 1]

lemma putRecord_concat (a : ℕ) (xs : List ℕ) (x : ℕ) (m : Mem) :
    putRecord a (xs ++ [x]) m = (putRecord a xs m).set (addr (a + xs.length)) x := by
  rw [putRecord_append]
  rfl

lemma putRecord_ne (h : ∀ i < xs.length, x ≠ addr (a + i)) : putRecord a xs m x = m x := by
  induction xs generalizing a m with
  | nil => rfl
  | cons y xs ih =>
    rw [List.length_cons] at h
    have hx : x ≠ addr a := h 0 (by omega)
    rw [putRecord, ih fun i hi => ?_, set_ne _ _ hx]
    rw [Nat.add_assoc, Nat.add_comm 1]
    exact h (i + 1) (by omega)

/-- The words of a short record are different ones. -/
lemma addr_inj (hi : i < addrSpace) (hk : k < addrSpace) (h : addr (a + i) = addr (a + k)) :
    i = k := by
  unfold addr at h
  unfold addrSpace at *
  omega

/-- The word of a record behind the words `xs` -/
lemma putRecord_middle (h : (xs ++ x :: ys).length ≤ addrSpace) :
    putRecord a (xs ++ x :: ys) m (addr (a + xs.length)) = x := by
  rw [List.length_append, List.length_cons] at h
  rw [putRecord_append, putRecord, putRecord_ne fun i hi heq => ?_, set_self]
  rw [Nat.add_assoc (a + xs.length), Nat.add_assoc] at heq
  have := addr_inj (by omega) (by omega) heq
  omega

lemma putRecord_set_comm (h : ∀ i < ys.length, x ≠ addr (a + i)) :
    (putRecord a ys m).set x v = putRecord a ys (m.set x v) := by
  funext z
  rw [set_apply]
  split_ifs with hz
  · rw [hz, putRecord_ne h, set_self]
  · induction ys generalizing a m with
    | nil => exact (set_ne _ _ hz).symm
    | cons y ys ih =>
      rw [List.length_cons] at h
      have hx : x ≠ addr a := h 0 (by omega)
      have hcomm : (m.set x v).set (addr a) y = (m.set (addr a) y).set x v := by
        funext w
        simp only [set_apply]
        split_ifs with h1 h2
        · exact absurd (h2.symm.trans h1) hx
        · rfl
        · rfl
        · rfl
      rw [putRecord, putRecord, hcomm]
      refine ih fun i hi => ?_
      rw [Nat.add_assoc, Nat.add_comm 1]
      exact h (i + 1) (by omega)

/-- A word of a record is written. -/
lemma putRecord_set (h : (xs ++ x :: ys).length ≤ addrSpace) :
    (putRecord a (xs ++ x :: ys) m).set (addr (a + xs.length)) y =
      putRecord a (xs ++ y :: ys) m := by
  rw [List.length_append, List.length_cons] at h
  have hset (m : Mem) : (m.set (addr (a + xs.length)) x).set (addr (a + xs.length)) y =
      m.set (addr (a + xs.length)) y := by
    funext w
    simp only [set_apply]
    split_ifs <;> rfl
  rw [putRecord_append, putRecord, putRecord_set_comm fun i hi heq => ?_, hset, putRecord_append,
    putRecord]
  rw [Nat.add_assoc (a + xs.length), Nat.add_assoc] at heq
  have := addr_inj (by omega) (by omega) heq
  omega

/-- Two words of a record are swapped. -/
lemma putRecord_swap (h : (xs ++ x :: (ds ++ y :: ys)).length ≤ addrSpace) :
    ((putRecord a (xs ++ x :: (ds ++ y :: ys)) m).set (addr (a + (xs.length + (ds.length + 1)))) x).set
        (addr (a + xs.length)) y = putRecord a (xs ++ y :: (ds ++ x :: ys)) m := by
  have hsplit (u v : ℕ) : xs ++ u :: (ds ++ v :: ys) = (xs ++ u :: ds) ++ v :: ys := by simp
  have hlen : xs.length + (ds.length + 1) = (xs ++ x :: ds).length := by simp
  rw [hsplit] at h
  rw [hsplit, hlen, putRecord_set h, ← hsplit, putRecord_set (by simpa using h)]

/-! ### A digit -/

/-- The sign of a difference -/
lemma shifted_sign (hx : x < 2 ^ 63) (hy : y < 2 ^ 63) :
    shifted (wsub x y) 63 = if x < y then 1 else 0 := by
  have h : shifted (wsub x y) 63 = wsub x y / 2 ^ 63 := if_neg (by decide)
  rw [h, wsub, wordMod]
  split_ifs <;> omega

/-- A comparison with a constant -/
lemma effect_compare (hr : r < 2 ^ 62) (hu : v < 100) :
    effect [sbs 6 rr (.imm v), shf 6 6 63] (file ρ m r buf b t g i f) =
      file ρ m r buf b t g i (if r < v then 1 else 0) := by
  have hv : toWord v = v := toWord_natCast (by unfold wordMod; omega)
  simp only [effect, line_sbs, val, hv, rd_file_rr, file_setReg_six]
  rw [line_shf _ _ _ _ (by decide), rd_file_six, shifted_sign (by omega) (by omega),
    file_setReg_six]

/-- A constant is added. -/
lemma effect_add (hr : r < 2 ^ 62) (hu : v < 100) :
    effect [ads rr rr (.imm v)] (file ρ m r buf b t g i f) =
      file ρ m (r + v) buf b t g i f := by
  have hv : toWord v = v := toWord_natCast (by unfold wordMod; omega)
  simp only [effect, line_ads, val, hv, rd_file_rr, file_setReg_rr]
  rw [wadd_eq (by unfold wordMod; omega)]

/-- The terminator is put behind the text, and the indexes of its ends are set. -/
lemma effect_terminate (h0 : ρ 0 = 0) (hi : 0 < i) (hi' : i < 2 ^ 60) :
    effect [ads rr 5 (.imm 0), str zr 1 (.reg 5), sbs 5 5 (.imm 1), xor 2 2 (.reg 2)]
      (file ρ m r buf b t g i f) = file ρ (m.set (addr (buf + i)) 0) i buf 0 t g (i - 1) f := by
  have hw : toWord 0 = 0 ∧ toWord 1 = 1 := by decide
  have hsub := wsub_eq (x := i) (y := 1) hi (by unfold wordMod; omega)
  have hadd := wadd_zero (x := i) (by unfold wordMod; omega)
  simp only [effect, line_ads, line_str, line_sbs, line_xor, val, hw]
  rw [rd_file_five, hadd, file_setReg_rr, rd_file_one, rd_file_five, rd_file_zr, h0, file_mk,
    rd_file_five, hsub, file_setReg_five, rd_file_two, Nat.xor_self, file_setReg_two]
  rfl

/-- The comparison of the two ends -/
lemma shifted_ends (hi : i < 2 ^ 60) (hk : k < 2 ^ 60) :
    shifted (wsub (k + 1) (wsub i 1)) 63 = if k + 2 < i then 1 else 0 := by
  have h : shifted (wsub (k + 1) (wsub i 1)) 63 = wsub (k + 1) (wsub i 1) / 2 ^ 63 :=
    if_neg (by decide)
  rw [h, wsub, wsub, wordMod]
  split_ifs <;> omega

lemma effect_ends (hi : i < 2 ^ 60) (hk : k < 2 ^ 60) :
    effect [sbs 3 2 (.reg 5), shf 3 3 63] (file ρ m r buf (k + 1) t g (wsub i 1) f) =
      file ρ m r buf (k + 1) (if k + 2 < i then 1 else 0) g (wsub i 1) f := by
  simp only [effect, line_sbs, val]
  rw [rd_file_two, rd_file_five, file_setReg_three, line_shf _ _ _ _ (by decide), rd_file_three,
    shifted_ends hi hk, file_setReg_three]

variable (hR : Z.Called q wordToStr c₀ saved)

include hR

/-- **A digit** becomes its character. -/
lemma digit_ends (hd : d < 2 ^ 60)
    (h : Body.At Z q c₀ saved 9 32 (file ρ m d buf b t g i f) c)
    (hQ : ∀ f c', Body.At Z q c₀ saved 9 41 (file ρ m (digitChar d) buf b t g i f) c' →
      Z.Ends Q c') : Z.Ends Q c := by
  have hn : saved.length < 9 := by decide
  refine h.run hR hn 33 [ads rr rr (.imm (48 : ℕ))] _ ⟨_, rfl⟩ (by decide) rfl
    (effect_add (by omega) (by decide)) (by simp [stores]) (by simp [touches]) fun c₁ h₁ => ?_
  refine h₁.run hR hn 35 [sbs 6 rr (.imm (58 : ℕ)), shf 6 6 63] _ ⟨_, rfl⟩ (by decide) rfl
    (effect_compare (by omega) (by decide)) (by simp [stores]) (by simp [touches]) fun c₂ h₂ => ?_
  refine h₂.branch hR 41 6 bp 41 rfl (by decide) (by decide) (.inl ⟨rfl, rfl⟩) (by decide)
    (by decide) (fun hlt c₃ h₃ => ?_) fun hge c₃ h₃ => ?_
  · -- a digit below ten
    have hlt' : d < 10 := by simpa using hlt
    have hchar : digitChar d = d + 48 := if_neg (by omega)
    exact hQ _ c₃ (hchar ▸ h₃)
  have hge' : 10 ≤ d := by simpa using hge
  refine h₃.run hR hn 37 [ads rr rr (.imm (7 : ℕ))] _ ⟨_, rfl⟩ (by decide) rfl
    (effect_add (by omega) (by decide)) (by simp [stores]) (by simp [touches]) fun c₄ h₄ => ?_
  refine h₄.run hR hn 39 [sbs 6 rr (.imm (91 : ℕ)), shf 6 6 63] _ ⟨_, rfl⟩ (by decide) rfl
    (effect_compare (by omega) (by decide)) (by simp [stores]) (by simp [touches]) fun c₅ h₅ => ?_
  refine h₅.branch hR 41 6 bp 41 rfl (by decide) (by decide) (.inl ⟨rfl, rfl⟩) (by decide)
    (by decide) (fun hlt c₆ h₆ => ?_) fun hge c₆ h₆ => ?_
  · -- a letter
    have hlt' : d < 36 := by simpa using hlt
    have hchar : digitChar d = d + 48 + 7 := (if_pos (by omega)).trans (if_neg (by omega))
    exact hQ _ c₆ (hchar ▸ h₆)
  · have hge' : 36 ≤ d := by simpa using hge
    have hchar : digitChar d = d + 48 + 7 + 6 := (if_pos (by omega)).trans (if_pos (by omega))
    refine h₆.run hR hn 41 [ads rr rr (.imm (6 : ℕ))] _ ⟨_, rfl⟩ (by decide) rfl
      (effect_add (by omega) (by decide)) (by simp [stores]) (by simp [touches]) fun c₇ h₇ => ?_
    exact hQ _ c₇ (hchar ▸ h₇)

/-- **The first loop** puts the digits of the number behind those that are there, as many as the base
lets it. -/
lemma digits_end (hb : 2 ≤ base ∧ base < 2 ^ 60) (hnum : num ≠ 0) (hi : i ≤ base)
    (hroom : ∀ k < base, k < i + (Nat.digits base num).length →
      Clear (c₀.regs sp) 9 (addr (buf + k)) ∧ addr (buf + k) ∈ Z.free)
    (h : Body.At Z q c₀ saved 9 28 (file ρ m r buf b num base i f) c)
    (hdone : i + (Nat.digits base num).length ≤ base → ∀ r f c', Body.At Z q c₀ saved 9 44
      (file ρ (putRecord (buf + i) ((Nat.digits base num).map digitChar) m) r buf b 0 base
        (i + (Nat.digits base num).length) f) c' → Z.Ends Q c')
    (hfail : base < i + (Nat.digits base num).length → ∀ r t f c', Body.At Z q c₀ saved 9 58
      (file ρ (putRecord (buf + i) (((Nat.digits base num).take (base - i)).map digitChar) m) r buf
        b t base base f) c' → Z.Ends Q c') : Z.Ends Q c := by
  have hn : saved.length < 9 := by decide
  induction num using Nat.strong_induction_on generalizing i m r f c with
  | _ num ih =>
    have hdigits := Nat.digits_def' (b := base) (by omega) (Nat.pos_of_ne_zero hnum)
    have hdlt : num % base < base := Nat.mod_lt _ (by omega)
    rw [hdigits, List.length_cons] at hroom hdone hfail
    refine h.run hR hn 29 [sbs rr 4 (.reg 5)] (file ρ m (base - i) buf b num base i f) ⟨_, rfl⟩
      (by decide) rfl ?_ (by simp [stores]) (by simp [touches]) fun c₁ h₁ => ?_
    · simp only [effect, line_sbs, val, rd_file_four, rd_file_five, file_setReg_rr]
      rw [wsub_eq hi (by unfold wordMod; omega)]
    refine h₁.branch hR 31 rr pc 2 rfl (by decide) (by decide) (.inr ⟨rfl, rfl⟩) (by decide)
      (by decide) (fun hlt c₂ h₂ => ?_) fun hge c₂ h₂ => ?_
    swap
    · -- there are as many digits as the base
      obtain rfl : i = base := by simp at hge; omega
      refine h₂.goto hR 58 bp 58 rfl (by decide) (.inl ⟨rfl, rfl⟩) (by decide) (by decide)
        fun c₃ h₃ => hfail (by omega) (i - i) num f c₃ ?_
      rw [Nat.sub_self] at h₃ ⊢
      exact h₃
    have hlt' : i < base := by simp at hlt; omega
    obtain ⟨hclear, hfree⟩ := hroom i hlt' (by omega)
    refine h₂.divide hR 3 3 rfl (by decide) (by decide) (by decide) (by decide)
      (by simp; omega) fun c₃ h₃ => ?_
    simp only [file_three, file_four, file_setReg_rr, file_setReg_three] at h₃
    refine digit_ends hR (by omega) h₃ fun f₄ c₄ h₄ => ?_
    refine h₄.run hR hn 43 [str rr 1 (.reg 5), ads 5 5 (.imm (1 : ℕ))]
      (file ρ (m.set (addr (buf + i)) (digitChar (num % base))) (digitChar (num % base)) buf b
        (num / base) base (i + 1) f₄) ⟨_, rfl⟩ (by decide) rfl ?_ (by simp [stores, val, hfree])
        (by simp [touches, val, hclear]) fun c₅ h₅ => ?_
    · have h1 : toWord (1 : ℕ) = 1 := by decide
      simp only [effect, line_str, line_ads, val, rd_file_rr, rd_file_one, rd_file_five, file_mem,
        file_mk, file_setReg_five, h1]
      rw [wadd_eq (by unfold wordMod; omega)]
    refine h₅.branch hR 28 3 bp 28 rfl (by decide) (by decide) (.inl ⟨rfl, rfl⟩) (by decide)
      (by decide) (fun hne c₆ h₆ => ?_) fun hzero c₆ h₆ => ?_
    · have hne' : num / base ≠ 0 := by simpa using hne
      have hlen : i + 1 + (Nat.digits base (num / base)).length =
          i + ((Nat.digits base (num / base)).length + 1) := by omega
      refine ih (num / base) (Nat.div_lt_self (Nat.pos_of_ne_zero hnum) (by omega)) hne' hlt'
        (fun k hk hk' => hroom k hk (by omega)) h₆ (fun hle => ?_) fun hgt => ?_
      · rw [hlen] at hle ⊢
        exact hdone hle
      · have htake : base - i = base - (i + 1) + 1 := by omega
        rw [hlen] at hgt
        rw [htake, List.take_succ_cons] at hfail
        exact hfail hgt
    · have hzero' : num / base = 0 := by simpa using hzero
      rw [hzero', Nat.digits_zero] at hdone
      rw [hzero'] at h₆
      exact hdone (by simpa using hlt') _ _ c₆ h₆

/-- The words at the ends are swapped, and the ends compared. -/
lemma swap_ends (hi : i < 2 ^ 60) (hk : k < 2 ^ 60)
    (hroom : ∀ j, j = i ∨ j = k → Clear (c₀.regs sp) 9 (addr (buf + j)) ∧ addr (buf + j) ∈ Z.free)
    (h : Body.At Z q c₀ saved 9 48 (file ρ m r buf k t g i f) c)
    (hnext : k + 2 < i → ∀ t g c', Body.At Z q c₀ saved 9 48
      (file ρ ((m.set (addr (buf + i)) (m (addr (buf + k)))).set (addr (buf + k))
        (m (addr (buf + i)))) r buf (k + 1) t g (i - 1) f) c' → Z.Ends Q c')
    (hdone : i ≤ k + 2 → ∀ b t g e c', Body.At Z q c₀ saved 9 57
      (file ρ ((m.set (addr (buf + i)) (m (addr (buf + k)))).set (addr (buf + k))
        (m (addr (buf + i)))) r buf b t g e f) c' → Z.Ends Q c') : Z.Ends Q c := by
  have hn : saved.length < 9 := by decide
  obtain ⟨hi₁, hi₂⟩ := hroom i (.inl rfl)
  obtain ⟨hk₁, hk₂⟩ := hroom k (.inr rfl)
  have h1 : toWord (1 : ℕ) = 1 := by decide
  refine h.run hR hn 54 [ldr 3 1 (.reg 2), ldr 4 1 (.reg 5), str 3 1 (.reg 5), str 4 1 (.reg 2),
      sbs 5 5 (.imm (1 : ℕ)), ads 2 2 (.imm (1 : ℕ))]
    (file ρ ((m.set (addr (buf + i)) (m (addr (buf + k)))).set (addr (buf + k))
      (m (addr (buf + i)))) r buf (k + 1) (m (addr (buf + k))) (m (addr (buf + i))) (wsub i 1) f)
    ⟨_, rfl⟩ (by decide) rfl ?_ (by simp [stores, val, hi₂, hk₂])
    (by simp [touches, val, hi₁, hk₁]) fun c₁ h₁ => ?_
  · simp only [effect, line_ldr, line_str, line_sbs, line_ads, val, rd_file_one, rd_file_two,
      rd_file_three, rd_file_four, rd_file_five, file_mem, file_mk, file_setReg_three,
      file_setReg_four, file_setReg_five, file_setReg_two, h1]
    rw [wadd_eq (show k + 1 < wordMod by unfold wordMod; omega)]
  refine h₁.run hR hn 56 [sbs 3 2 (.reg 5), shf 3 3 63]
    _ ⟨_, rfl⟩ (by decide) rfl (effect_ends hi hk) (by simp [stores]) (by simp [touches])
    fun c₂ h₂ => ?_
  refine h₂.branch hR 48 3 bp 48 rfl (by decide) (by decide) (.inl ⟨rfl, rfl⟩) (by decide)
    (by decide) (fun hne c₃ h₃ => ?_) fun hzero c₃ h₃ => ?_
  · have hlt : k + 2 < i := by simpa using hne
    rw [wsub_eq (show 1 ≤ i by omega) (show i < wordMod by unfold wordMod; omega)] at h₃
    exact hnext hlt _ _ c₃ h₃
  · have hge : i ≤ k + 2 := by simpa using hzero
    exact hdone hge _ _ _ _ c₃ h₃

/-- **The second loop** turns the words around. -/
lemma turn_ends (mid : List ℕ) (hmid : mid ≠ []) (hlen : (xs ++ (mid ++ ys)).length < 2 ^ 60)
    (hroom : ∀ k, k < xs.length + mid.length →
      Clear (c₀.regs sp) 9 (addr (buf + k)) ∧ addr (buf + k) ∈ Z.free)
    (h : Body.At Z q c₀ saved 9 48 (file ρ (putRecord buf (xs ++ (mid ++ ys)) m) r buf xs.length t g
      (xs.length + mid.length - 1) f) c)
    (hQ : ∀ b t g e c', Body.At Z q c₀ saved 9 57
      (file ρ (putRecord buf (xs ++ (mid.reverse ++ ys)) m) r buf b t g e f) c' → Z.Ends Q c') :
    Z.Ends Q c := by
  have hspace : (2 : ℕ) ^ 60 ≤ addrSpace := by decide
  induction mid using List.bidirectionalRec generalizing xs ys c t g with
  | nil => exact absurd rfl hmid
  | singleton x =>
    -- the middle word is swapped with itself
    rw [List.singleton_append] at hlen h
    rw [List.reverse_singleton, List.singleton_append] at hQ
    have hword := putRecord_middle (a := buf) (m := m) (by omega : (xs ++ x :: ys).length ≤ addrSpace)
    have hset := putRecord_set (a := buf) (y := x) (m := m)
      (by omega : (xs ++ x :: ys).length ≤ addrSpace)
    have hi : xs.length + [x].length - 1 = xs.length := rfl
    rw [List.length_append] at hlen
    rw [hi] at h
    refine swap_ends hR (by omega) (by omega) (fun j hj => hroom j ?_) h (fun hlt => ?_)
      fun hge b t g e c' h' => hQ b t g e c' ?_
    · rw [List.length_singleton]
      omega
    · omega
    · rw [hword, hset, hset] at h'
      exact h'
  | cons_append x l y ih =>
    have hassoc : x :: (l ++ [y]) ++ ys = x :: (l ++ y :: ys) := by simp
    have hi : xs.length + (x :: (l ++ [y])).length - 1 = xs.length + (l.length + 1) := by simp
    rw [hassoc] at h hlen
    rw [hi] at h
    have hfirst := putRecord_middle (a := buf) (m := m) (hlen.le.trans hspace)
    have hlast : putRecord buf ((xs ++ x :: l) ++ y :: ys) m
        (addr (buf + (xs ++ x :: l).length)) = y :=
      putRecord_middle (by simpa using hlen.le.trans hspace)
    have hsplit : (xs ++ x :: l) ++ y :: ys = xs ++ x :: (l ++ y :: ys) := by simp
    have hlen' : (xs ++ x :: l).length = xs.length + (l.length + 1) := by simp
    rw [hsplit, hlen'] at hlast
    have hswap := putRecord_swap (a := buf) (m := m) (hlen.le.trans hspace)
    have hrev : (x :: (l ++ [y])).reverse ++ ys = y :: (l.reverse ++ x :: ys) := by simp
    rw [hrev] at hQ
    simp only [List.length_append, List.length_cons] at hlen hroom
    simp only [List.length_nil] at hroom
    refine swap_ends hR (by omega) (by omega) (fun j hj => hroom j (by omega)) h
      (fun hlt t g c' h' => ?_) fun hge b t g e c' h' => hQ b t g e c' ?_
    · rw [hfirst, hlast, hswap] at h'
      have hl : l ≠ [] := fun h0 => by
        rw [h0, List.length_nil] at hlt
        omega
      have hone : (xs ++ [y]).length = xs.length + 1 := by simp
      have hi' : xs.length + (l.length + 1) - 1 = (xs ++ [y]).length + l.length - 1 := by omega
      have happ (l : List ℕ) : xs ++ y :: (l ++ x :: ys) = (xs ++ [y]) ++ (l ++ x :: ys) := by simp
      rw [happ, ← hone, hi'] at h'
      rw [happ] at hQ
      refine ih hl ?_ (fun k hk => hroom k (by omega)) h' hQ
      simp only [List.length_append, List.length_cons, List.length_nil]
      omega
    · rw [hfirst, hlast, hswap] at h'
      have hshort : l.reverse = l := by
        rcases l with _ | ⟨z, _ | ⟨w, l⟩⟩
        · rfl
        · rfl
        · simp only [List.length_cons] at hge
          omega
      rw [hshort]
      exact h'

omit hR in
/-- The result of `word_to_str`, and the words that it leaves in the buffer -/
def formatted (base num : ℕ) : ℕ × List ℕ :=
  let text := (Nat.digits base num).map digitChar
  if num = 0 then (1, [48, 0])
  else if text.length ≤ base then (text.length, text.reverse ++ [0])
  else (wordMod - 1, text.take base)

/-- **The routine** -/
lemma wordToStr_ends {sz : ℕ} (h : Z.At q c₀) (h0 : c₀.regs zr = 0) (hlr : c₀.regs lr ≠ 0)
    (hargs : c₀.mem (addr (c₀.regs rr)) = buf ∧ c₀.mem (addr (c₀.regs rr + 1)) = sz ∧
      c₀.mem (addr (c₀.regs rr + 2)) = num ∧ c₀.mem (addr (c₀.regs rr + 3)) = base)
    (hrec : ∀ i < 4, Clear (c₀.regs sp) 9 (addr (c₀.regs rr + i))) (hsz : 2 ≤ sz)
    (hb : 2 ≤ base ∧ base ≤ 36)
    (hroom : ∀ k < (formatted base num).2.length,
      Clear (c₀.regs sp) 9 (addr (buf + k)) ∧ addr (buf + k) ∈ Z.free) :
    Z.Ends (Returned Z c₀ 9 (formatted base num).1 (putRecord buf (formatted base num).2 c₀.mem))
      c₀ := by
  have hn : saved.length < 9 := by decide
  have hsp : c₀.regs sp < wordMod := h.real.regs_lt sp
  obtain ⟨h1, h2, h3, h4⟩ := hargs
  have hw : toWord 0 = 0 ∧ toWord 1 = 1 ∧ toWord 2 = 2 ∧ toWord 3 = 3 ∧ toWord 48 = 48 := by decide
  have hleave {r : ℕ} {m : Mem} {b t g e f : ℕ} {c : Cpu}
      (h : Body.At Z q c₀ saved 9 59 (file c₀.regs m r buf b t g e f) c)
      (heq : (r, m) = ((formatted base num).1, putRecord buf (formatted base num).2 c₀.mem)) :
      Z.Ends (Returned Z c₀ 9 (formatted base num).1
        (putRecord buf (formatted base num).2 c₀.mem)) c := by
    obtain ⟨rfl, rfl⟩ := Prod.mk.inj heq
    exact h.leave hR hsp ⟨_, rfl⟩ (by decide) hlr
  have hsz' : sz < wordMod := h2 ▸ h.real.mem_lt _
  -- the size of the buffer
  refine start hR h ⟨_, rfl⟩ (by decide) hn 12 rfl fun c₁ h₁ => ?_
  refine h₁.run hR hn 14 [ldr 1 rr (.imm 0), ldr 2 rr (.imm 1)]
    (file c₀.regs c₀.mem (c₀.regs rr) buf sz (c₀.regs 3) (c₀.regs 4) (c₀.regs 5) (c₀.regs 6))
    ⟨_, rfl⟩ (by decide) rfl ?_ (by simp [stores]) ?_ fun c₂ h₂ => ?_
  · simp [effect, val, hw, h1, h2]
  · have hrec₀ := hrec 0 (by omega)
    rw [Nat.add_zero] at hrec₀
    simp [touches, val, hw, hrec₀, hrec 1 (by omega)]
  refine h₂.run hR hn 16 [shf 3 2 1, shf 3 3 (-1)]
    (file c₀.regs c₀.mem (c₀.regs rr) buf sz (sz / 2 * 2) (c₀.regs 4) (c₀.regs 5) (c₀.regs 6))
    ⟨_, rfl⟩ (by decide) rfl ?_ (by simp [stores]) (by simp [touches]) fun c₃ h₃ => ?_
  · have hshift : shifted (shifted sz 1) (-1) = sz / 2 * 2 := by
      have hup : shifted sz 1 = sz / 2 := if_neg (by decide)
      have hdown (x : ℕ) : shifted x (-1) = x * 2 % wordMod := if_pos (by decide)
      rw [hup, hdown, Nat.mod_eq_of_lt (by omega)]
    simp [effect, line_shf, hshift]
  refine h₃.branch hR 18 3 pc 2 rfl (by decide) (by decide) (.inr ⟨rfl, rfl⟩) (by decide)
    (by decide) (fun _ c₄ h₄ => ?_) fun hzero _ _ => ?_
  swap
  · rw [file_three] at hzero
    omega
  -- the number
  refine h₄.run hR hn 19 [ldr 3 rr (.imm 2)]
    (file c₀.regs c₀.mem (c₀.regs rr) buf sz num (c₀.regs 4) (c₀.regs 5) (c₀.regs 6))
    ⟨_, rfl⟩ (by decide) rfl ?_ (by simp [stores]) ?_ fun c₅ h₅ => ?_
  · simp [effect, val, hw, h3]
  · simp [touches, val, hw, hrec 2 (by omega)]
  refine h₅.branch hR 25 3 bp 25 rfl (by decide) (by decide) (.inl ⟨rfl, rfl⟩) (by decide)
    (by decide) (fun hne c₆ h₆ => ?_) fun hzero c₆ h₆ => ?_
  swap
  · -- the number zero
    rw [file_three] at hzero
    have hform : formatted base num = (1, [48, 0]) := if_pos hzero
    rw [hform] at hroom hleave ⊢
    obtain ⟨hclear₀, hfree₀⟩ := hroom 0 (by decide)
    obtain ⟨hclear₁, hfree₁⟩ := hroom 1 (by decide)
    rw [Nat.add_zero] at hclear₀ hfree₀
    refine h₆.run hR hn 24 [ads 4 zr (.imm 48), str 4 1 (.imm 0), str zr 1 (.imm 1),
        ads rr zr (.imm 1)]
      (file c₀.regs ((c₀.mem.set (addr buf) 48).set (addr (buf + 1)) 0) 1 buf sz num 48 (c₀.regs 5)
        (c₀.regs 6)) ⟨_, rfl⟩ (by decide) rfl ?_ ?_ ?_ fun c₇ h₇ => ?_
    · have hzr : c₀.regs 0 = 0 := h0
      have hadd (x : ℕ) (hx : x < 100) : wadd 0 x = x := by
        rw [wadd_eq (by unfold wordMod; omega), Nat.zero_add]
      simp [effect, val, hw, hzr, hadd]
    · simp [stores, val, hw, hfree₀, hfree₁]
    · simp [touches, val, hw, hclear₀, hclear₁]
    refine h₇.goto hR 59 bp 59 rfl (by decide) (.inl ⟨rfl, rfl⟩) (by decide) (by decide)
      fun c₈ h₈ => hleave h₈ rfl
  rw [file_three] at hne
  have hlen : (formatted base num).2.length =
      if (Nat.digits base num).length ≤ base then (Nat.digits base num).length + 1 else base := by
    rw [formatted, if_neg hne, List.length_map]
    split_ifs with hle
    · simp
    · simp only [List.length_take, List.length_map]
      omega
  -- the base
  refine h₆.run hR hn 28 [ldr 4 rr (.imm 3), sbs 2 4 (.imm 1), xor 5 5 (.reg 5)]
    (file c₀.regs c₀.mem (c₀.regs rr) buf (wsub base 1) num base 0 (c₀.regs 6))
    ⟨_, rfl⟩ (by decide) rfl ?_ (by simp [stores]) ?_ fun c₇ h₇ => ?_
  · simp [effect, val, hw, h4]
  · simp [touches, val, hw, hrec 3 (by omega)]
  refine digits_end hR (by omega) hne (by omega) (fun k hk hk' => hroom k ?_) h₇
    (fun hle r f c₈ h₈ => ?_) fun hgt r t f c₈ h₈ => ?_
  · rw [hlen]
    split_ifs <;> omega
  · -- there is room for all digits
    rw [Nat.zero_add] at hle h₈
    have hform : formatted base num = ((Nat.digits base num).length,
        ((Nat.digits base num).map digitChar).reverse ++ [0]) := by
      rw [formatted, if_neg hne, List.length_map, if_pos hle]
    rw [if_pos hle] at hlen
    rw [hlen] at hroom
    obtain ⟨hclear, hfree⟩ := hroom (Nat.digits base num).length (by omega)
    have hpos : 0 < (Nat.digits base num).length :=
      List.length_pos_of_ne_nil (Nat.digits_ne_nil_iff_ne_zero.mpr hne)
    refine h₈.run hR hn 48 [ads rr 5 (.imm 0), str zr 1 (.reg 5), sbs 5 5 (.imm 1),
        xor 2 2 (.reg 2)]
      (file c₀.regs (putRecord buf ((Nat.digits base num).map digitChar ++ [0]) c₀.mem)
        (Nat.digits base num).length buf 0 0 base ((Nat.digits base num).length - 1) f)
      ⟨_, rfl⟩ (by decide) rfl ?_ ?_ ?_ fun c₉ h₉ => ?_
    · rw [effect_terminate h0 hpos (by omega), putRecord_concat, List.length_map, Nat.add_zero]
    · simp [stores, val, hw, hfree]
    · simp [touches, val, hw, hclear]
    have h₉' : Body.At Z q c₀ saved 9 48 (file c₀.regs (putRecord buf
        ([] ++ ((Nat.digits base num).map digitChar ++ [0])) c₀.mem) (Nat.digits base num).length
      buf ([] : List ℕ).length 0 base
        (([] : List ℕ).length + ((Nat.digits base num).map digitChar).length - 1) f) c₉ := by
      rw [List.nil_append, List.length_nil, Nat.zero_add, List.length_map]
      exact h₉
    refine turn_ends hR _ (by simpa using Nat.digits_ne_nil_iff_ne_zero.mpr hne) ?_
      (fun k hk => hroom k ?_) h₉' fun b t g e c' h' => ?_
    · simp only [List.nil_append, List.length_append, List.length_map, List.length_singleton]
      omega
    · simp only [List.length_nil, List.length_map] at hk
      omega
    · refine h'.goto hR 59 bp 59 rfl (by decide) (.inl ⟨rfl, rfl⟩) (by decide) (by decide)
        fun c₉ h₉ => hleave h₉ ?_
      rw [hform, List.nil_append]
  · rw [Nat.zero_add] at hgt
    have hform : formatted base num =
        (wordMod - 1, ((Nat.digits base num).map digitChar).take base) := by
      rw [formatted, if_neg hne, List.length_map, if_neg (by omega)]
    refine h₈.run hR hn 59 [sbs rr zr (.imm 1)]
      (file c₀.regs (putRecord (buf + 0) (((Nat.digits base num).take (base - 0)).map digitChar)
        c₀.mem) (wordMod - 1) buf (wsub base 1) t base base f)
      ⟨_, rfl⟩ (by decide) rfl ?_ (by simp [stores]) (by simp [touches])
      fun c₉ h₉ => hleave h₉ ?_
    · have hzr : c₀.regs 0 = 0 := h0
      have hsub : wsub 0 1 = wordMod - 1 := by decide
      simp [effect, val, hw, hzr, hsub]
    · rw [hform, Nat.add_zero, Nat.sub_zero, List.map_take]

/-! ### Calls -/

omit hR

/-- The places of the call at `p`, and of the routine at `q` -/
def places (q p : ℕ) : Set ℕ := {x | x = p ∨ x = p + 1 ∨ ∃ k < wordToStr.length, x = q + k}

/-- `word_to_str`, assembled at `q`, is called in the state `c` for the number `num`, with a buffer
of `sz` words at `buf`. The stack is apart from the code, from the arguments and from the first `n`
words of the buffer; so is the code from these. -/
structure Call (q buf sz num base n : ℕ) (c : Cpu) : Prop where
  real : Real c
  running : c.regs sr &&& excContMask ≠ 0
  zero : c.regs zr = 0
  site : Loaded (c.regs pc) (callb q) c.mem
  loaded : ∀ ws, compile wordToStrText = some ws → ∀ k w, ws[k]? = some w →
    c.mem (addr (q + k)) = w
  bound : 0 < q ∧ q < 2 ^ 45
  room : c.regs pc + 2 < wordMod
  back : c.regs pc + 2 ∉ places q (c.regs pc)
  args : c.mem (addr (c.regs rr)) = buf ∧ c.mem (addr (c.regs rr + 1)) = sz ∧
    c.mem (addr (c.regs rr + 2)) = num ∧ c.mem (addr (c.regs rr + 3)) = base
  record : ∀ i < 4, Clear (c.regs sp) 9 (addr (c.regs rr + i))
  buffer : ∀ i < n, Clear (c.regs sp) 9 (addr (buf + i))
  apart : ∀ p ∈ places q (c.regs pc), Clear (c.regs sp) 9 (addr p) ∧
    ∀ i < n, addr p ≠ addr (buf + i)

/-- What is carried out in a call, and the `n` words of the buffer and those of the stack, which may
change -/
def callZone (q buf n : ℕ) (c : Cpu) : Zone where
  code := places q (c.regs pc)
  free := {x | ¬ Clear (c.regs sp) 9 x ∨ ∃ i < n, x = addr (buf + i)}
  mem := c.mem

/-- The words of a buffer that a text may need, with its terminator -/
def usable (sz : ℕ) : ℕ := Min.min sz 65

/-- The call returns what `uintn_to_str` does, with the same text in the buffer, and changes only the
buffer and its own stack. -/
def Formats (q buf sz num base : ℕ) (c : Cpu) : Prop :=
  ∃ c', (callZone q buf (usable sz) c).Runs c c' ∧ c'.regs pc = c.regs pc + 2 ∧
    match uintnToStr sz num base with
    | none => c'.regs rr = wordMod - 1
    | some text => c'.regs rr = text.length ∧
      ∀ i w, (text ++ [0])[i]? = some w → c'.mem (addr (buf + i)) = w

variable {sz : ℕ}

lemma Call.holds (h : Call q buf sz num base n c) :
    (callZone q buf n c).Holds q wordToStr := by
  have hplace {k : ℕ} (hk : k < wordToStr.length) : q + k ∈ places q (c.regs pc) :=
    .inr (.inr ⟨k, hk, rfl⟩)
  refine ⟨fun k i hi => ?_, fun k hk => hplace hk, fun k hk => ?_, ?_⟩
  · refine h.loaded _ compile_wordToStr k _ ?_
    rw [List.getElem?_map, hi, Option.map_some]
  · rintro (hfree | ⟨i, hi, heq⟩)
    · exact hfree (h.apart _ (hplace hk)).1
    · exact (h.apart _ (hplace hk)).2 i hi heq
  · have hlen : wordToStr.length = 70 := rfl
    have := h.bound
    unfold wordMod
    omega

/-- **A call** ends as the routine does. -/
lemma Call.ends (h : Call q buf sz num base n c) (hsz : 2 ≤ sz) (hb : 2 ≤ base ∧ base ≤ 36)
    (hn : (formatted base num).2.length ≤ n) :
    ∃ c', (callZone q buf n c).Runs c c' ∧ c'.regs pc = c.regs pc + 2 ∧
      c'.regs rr = (formatted base num).1 ∧ ∀ x, Clear (c.regs sp) 9 x →
        c'.mem x = putRecord buf (formatted base num).2 c.mem x := by
  have hplace {k : ℕ} (hk : k < 2) : c.regs pc + k ∈ places q (c.regs pc) := by
    have hk' : k = 0 ∨ k = 1 := by omega
    rcases hk' with rfl | rfl
    · exact .inl rfl
    · exact .inr (.inl rfl)
  have hz : (callZone q buf n c).Holds (c.regs pc) (callb q) := by
    refine ⟨h.site, fun k hk => hplace hk, fun k hk => ?_, h.room⟩
    rintro (hfree | ⟨i, hi, heq⟩)
    · exact hfree (h.apart _ (hplace hk)).1
    · exact (h.apart _ (hplace hk)).2 i hi heq
  have hc : (callZone q buf n c).At (c.regs pc + 0) c := ⟨h.real, rfl, h.running, fun x _ => rfl⟩
  obtain ⟨c₀, hruns, hat, hlr, hregs, hmem⟩ := hc.callb hz (List.prefix_refl _) h.bound h.zero
  have hsp := hregs sp (by decide)
  have hrr := hregs rr (by decide)
  have hlen : saved.length = 8 := rfl
  have hR : (callZone q buf n c).Called q wordToStr c₀ saved :=
    ⟨h.holds, by decide, fun i hi => .inl fun hclear => hclear i (by omega) (by rw [hsp]),
      by decide⟩
  obtain ⟨c', hruns', hret⟩ := wordToStr_ends hR hat ((hregs zr (by decide)).trans h.zero)
    (by rw [hlr]; omega) (by rw [hmem, hrr]; exact h.args) (by rw [hsp, hrr]; exact h.record) hsz hb
    fun k hk => by
      rw [hsp]
      exact ⟨h.buffer k (by omega), .inr ⟨k, by omega, rfl⟩⟩
  refine ⟨c', hruns.trans hruns', ?_, hret.result, fun x hx => ?_⟩
  · rw [hret.here.counter, hlr]
  · rw [hret.mem x (hsp ▸ hx), hmem]

/-! ### Agreement -/

lemma uintnLoop_digits (hb : 2 ≤ base) (n num : ℕ) : uintnLoop base n num =
    if (Nat.digits base num).length ≤ n then some ((Nat.digits base num).map digitChar)
    else none := by
  induction n generalizing num with
  | zero =>
    rw [uintnLoop]
    split_ifs with h0 hle hle
    · rw [h0, Nat.digits_zero]
      rfl
    · rw [h0, Nat.digits_zero] at hle
      exact absurd le_rfl hle
    · rw [Nat.le_zero, List.length_eq_zero_iff, Nat.digits_eq_nil_iff_eq_zero] at hle
      exact absurd hle h0
    · rfl
  | succ n ih =>
    rw [uintnLoop]
    split_ifs with h0 hle hle
    · rw [h0, Nat.digits_zero]
      rfl
    · rw [h0, Nat.digits_zero] at hle
      exact absurd (Nat.zero_le _) hle
    all_goals rw [Nat.digits_def' (by omega) (Nat.pos_of_ne_zero h0), List.length_cons] at hle
    · rw [ih, if_pos (by omega), Nat.digits_def' (by omega) (Nat.pos_of_ne_zero h0)]
      rfl
    · rw [ih, if_neg (by omega)]
      rfl

lemma uintnToStr_digits (hb : 2 ≤ base) (hsz : 2 ≤ sz) (h0 : num ≠ 0) : uintnToStr sz num base =
    if (Nat.digits base num).length < sz then
      some ((Nat.digits base num).map digitChar).reverse else none := by
  rw [uintnToStr, if_neg (by omega), if_neg h0, uintnLoop_digits hb]
  by_cases h : (Nat.digits base num).length < sz
  · rw [if_pos (by omega), if_pos h, Option.map_some]
  · rw [if_neg (by omega), if_neg h, Option.map_none]

/-- The text fits into the buffer and has no more digits than the base, or it has more digits than
the base, does not fit into the buffer, and the buffer is no shorter than the base. -/
def Fits (sz num base : ℕ) : Prop :=
  num < base ^ base ∧ num < base ^ (sz - 1) ∨
    base ^ base ≤ num ∧ base ^ (sz - 1) ≤ num ∧ base ≤ sz

lemma fits_iff (hb : 2 ≤ base) (hsz : 2 ≤ sz) : Fits sz num base ↔
    (Nat.digits base num).length ≤ base ∧ (Nat.digits base num).length < sz ∨
      base < (Nat.digits base num).length ∧ sz ≤ (Nat.digits base num).length ∧ base ≤ sz := by
  have h (k : ℕ) : (Nat.digits base num).length ≤ k ↔ num < base ^ k :=
    Nat.digits_length_le_iff (by omega) num
  have h1 := h base
  have h2 := h (sz - 1)
  unfold Fits
  omega

/-- A number has at most 64 digits. -/
lemma digits_le (hb : 2 ≤ base) (hnum : num < wordMod) : (Nat.digits base num).length ≤ 64 :=
  (Nat.digits_length_le_iff (by omega) num).mpr (hnum.trans_le (Nat.pow_le_pow_left hb 64))

lemma putRecord_getElem (hk : xs[k]? = some v) (h : xs.length ≤ addrSpace) :
    putRecord a xs m (addr (a + k)) = v := by
  obtain ⟨hlt, rfl⟩ := List.getElem?_eq_some_iff.mp hk
  have hsplit : xs = xs.take k ++ xs[k] :: xs.drop (k + 1) := by
    rw [List.cons_getElem_drop_succ, List.take_append_drop]
  have hlen : (xs.take k).length = k := List.length_take_of_le hlt.le
  have := putRecord_middle (a := a) (m := m) (hsplit ▸ h)
  rwa [← hsplit, hlen] at this

lemma digitChar_pos (d : ℕ) : digitChar d ≠ 0 := by
  simp only [digitChar]
  split_ifs <;> omega

lemma Call.num_lt (h : Call q buf sz num base n c) : num < wordMod := h.args.2.2.1 ▸ h.real.mem_lt _

/-- **The texts agree** where the text fits. -/
lemma Call.formats (h : Call q buf sz num base (usable sz) c) (hsz : 2 ≤ sz)
    (hb : 2 ≤ base ∧ base ≤ 36) (hfits : Fits sz num base) : Formats q buf sz num base c := by
  have hlen := digits_le hb.1 h.num_lt
  have hspace : 65 ≤ addrSpace := by decide
  rw [fits_iff hb.1 hsz] at hfits
  -- the text and its terminator are in the buffer
  have hmem {text : List ℕ} {c' : Cpu} (hlen : (text ++ [0]).length ≤ usable sz)
      (hc' : ∀ x, Clear (c.regs sp) 9 x → c'.mem x = putRecord buf (text ++ [0]) c.mem x) :
      ∀ i w, (text ++ [0])[i]? = some w → c'.mem (addr (buf + i)) = w := fun i w hi => by
    have hlt := (List.getElem?_eq_some_iff.mp hi).1
    have hle : usable sz ≤ 65 := Nat.min_le_right ..
    rw [hc' _ (h.buffer i (by omega)), putRecord_getElem hi (by omega)]
  by_cases h0 : num = 0
  · have hform : formatted base num = (1, [48] ++ [0]) := if_pos h0
    have hu : 2 ≤ usable sz := by
      unfold usable
      omega
    obtain ⟨c', hruns, hpc, hrr, hc'⟩ := h.ends hsz hb (by rw [hform]; exact hu)
    rw [hform] at hrr hc'
    refine ⟨c', hruns, hpc, ?_⟩
    rw [uintnToStr, if_neg (by omega), if_pos h0]
    exact ⟨hrr, hmem hu hc'⟩
  rcases hfits with ⟨hle, hlt⟩ | ⟨hgt, hge, hbase⟩
  · have hform : formatted base num = ((Nat.digits base num).length,
        ((Nat.digits base num).map digitChar).reverse ++ [0]) := by
      rw [formatted, if_neg h0, List.length_map, if_pos hle]
    have hu : (((Nat.digits base num).map digitChar).reverse ++ [0]).length ≤ usable sz := by
      rw [List.length_append, List.length_reverse, List.length_map, List.length_singleton, usable]
      omega
    obtain ⟨c', hruns, hpc, hrr, hc'⟩ := h.ends hsz hb (by rw [hform]; exact hu)
    rw [hform] at hrr hc'
    refine ⟨c', hruns, hpc, ?_⟩
    rw [uintnToStr_digits hb.1 hsz h0, if_pos hlt]
    exact ⟨by rw [hrr, List.length_reverse, List.length_map], hmem hu hc'⟩
  · have hform : formatted base num =
        (wordMod - 1, ((Nat.digits base num).map digitChar).take base) := by
      rw [formatted, if_neg h0, List.length_map, if_neg (by omega)]
    obtain ⟨c', hruns, hpc, hrr, -⟩ := h.ends hsz hb (by
      rw [hform, List.length_take, List.length_map, usable]
      omega)
    rw [hform] at hrr
    refine ⟨c', hruns, hpc, ?_⟩
    rw [uintnToStr_digits hb.1 hsz h0, if_neg (by omega)]
    exact hrr

/-! ### Disagreement -/

lemma callZone_mono {n' : ℕ} (hn : n ≤ n') (h : (callZone q buf n c).Runs c c') :
    (callZone q buf n' c).Runs c c' := by
  have hstep (d d' : Cpu) (hs : (callZone q buf n c).Step d d') :
      (callZone q buf n' c).Step d d' :=
    ⟨hs.real, hs.inside, hs.step, fun x hx => hs.kept x fun hfree =>
      hx (hfree.imp_right fun ⟨i, hi, hx⟩ => ⟨i, hi.trans_le hn, hx⟩)⟩
  exact ReflTransGen.mono hstep _ _ h

lemma callZone_kept (h : (callZone q buf n c).Runs c c') (hx : Clear (c.regs sp) 9 x)
    (hbuf : ∀ i < n, x ≠ addr (buf + i)) : c'.mem x = c.mem x := by
  rcases h.cases_tail with rfl | ⟨d, -, hs⟩
  · rfl
  · refine hs.kept x ?_
    rintro (hfree | ⟨i, hi, heq⟩)
    · exact hfree hx
    · exact hbuf i hi heq

/-- **The texts disagree** where the text does not fit, if there is a zero behind the buffer. -/
lemma Call.not_formats (h : Call q buf sz num base 65 c) (hsz : 2 ≤ sz)
    (hb : 2 ≤ base ∧ base ≤ 36) (hfits : ¬ Fits sz num base)
    (hbehind : sz < 65 → c.mem (addr (buf + sz)) = 0) : ¬ Formats q buf sz num base c := by
  have hlen := digits_le hb.1 h.num_lt
  have hspace : 65 ≤ addrSpace := by decide
  rw [fits_iff hb.1 hsz] at hfits
  have h0 : num ≠ 0 := fun h0 => hfits (.inl (by
    rw [h0, Nat.digits_zero, List.length_nil]
    omega))
  have hform : formatted base num = if (Nat.digits base num).length ≤ base then
      ((Nat.digits base num).length, ((Nat.digits base num).map digitChar).reverse ++ [0])
      else (wordMod - 1, ((Nat.digits base num).map digitChar).take base) := by
    rw [formatted, if_neg h0, List.length_map]
  rintro ⟨c', hruns, hpc, hres⟩
  obtain ⟨c₁, hruns₁, hpc₁, hrr, hmem⟩ := h.ends hsz hb (by
    rw [hform]
    split_ifs
    · simp only [List.length_append, List.length_reverse, List.length_map, List.length_singleton]
      omega
    · simp only [List.length_take, List.length_map]
      omega)
  obtain rfl : c' = c₁ := Zone.Runs.unique (callZone_mono (Nat.min_le_right ..) hruns) hruns₁
    (by rw [hpc]; exact h.back) (by rw [hpc₁]; exact h.back)
  have hword : wordMod - 1 > 64 := by decide
  rw [uintnToStr_digits hb.1 hsz h0] at hres
  by_cases hle : (Nat.digits base num).length ≤ base
  · -- the text does not fit into the buffer
    rw [if_neg (by omega)] at hres
    rw [hform, if_pos hle] at hrr
    have hrr' : c'.regs rr = (Nat.digits base num).length := hrr
    have hres' : c'.regs rr = wordMod - 1 := hres
    omega
  rw [hform, if_neg hle] at hrr hmem
  by_cases hlt : (Nat.digits base num).length < sz
  · -- the text fits into the buffer
    rw [if_pos hlt] at hres
    have hrr' : c'.regs rr = wordMod - 1 := hrr
    have hres' := hres.1
    rw [List.length_reverse, List.length_map] at hres'
    omega
  · -- a digit is written behind the buffer
    have hsz' : sz < 65 := by omega
    obtain ⟨d, hd⟩ : ∃ d, (Nat.digits base num)[sz]? = some d :=
      ⟨_, List.getElem?_eq_getElem (by omega)⟩
    have hget : (((Nat.digits base num).map digitChar).take base)[sz]? = some (digitChar d) := by
      rw [List.getElem?_take_of_lt (by omega), List.getElem?_map, hd, Option.map_some]
    have hclear := h.buffer sz hsz'
    have hdigit := hmem _ hclear
    rw [putRecord_getElem hget (by simp only [List.length_take, List.length_map]; omega),
      callZone_kept hruns hclear fun i hi heq => ?_, hbehind hsz'] at hdigit
    · exact digitChar_pos _ hdigit.symm
    · have hi' : i < sz := hi.trans_le (Nat.min_le_left ..)
      have := addr_inj (by omega) (by omega) heq
      omega

/-! ### An image of the routine -/

/-- The routine at 128, a call of it at 2048, the arguments at 3000, and a buffer at 5000 -/
def image (sz num base : ℕ) : Mem := fun x =>
  if x < 128 then 0
  else if x < 2048 then wordAt wordToStr (x - 128)
  else if x < 3000 then wordAt (callb 128) (x - 2048)
  else [5000, sz, num, base].getD (x - 3000) 0

/-- The state at the call -/
def caller (sz num base : ℕ) : Cpu where
  regs r := if r = pc then 2048 else if r = sp then 4000 else if r = rr then 3000
    else if r = sr then excContMask else 0
  mem := image sz num base

lemma caller_regs (sz num base r : ℕ) : (caller sz num base).regs r =
    if r = pc then 2048 else if r = sp then 4000 else if r = rr then 3000
      else if r = sr then excContMask else 0 := rfl

lemma image_lt (hsz : sz < wordMod) (hnum : num < wordMod) (hbase : base < wordMod) (x : ℕ) :
    image sz num base x < wordMod := by
  have hroutine : ∀ i ∈ wordToStr, i.word < wordMod := by decide +kernel
  have hcall : ∀ i ∈ callb 128, i.word < wordMod := by decide +kernel
  have h5000 : 5000 < wordMod := by decide
  unfold image
  split_ifs
  · decide
  · exact wordAt_lt hroutine _
  · exact wordAt_lt hcall _
  · rw [List.getD_eq_getElem?_getD]
    cases hk : [5000, sz, num, base][x - 3000]? with
    | none => decide
    | some w =>
      have := List.mem_of_getElem? hk
      simp only [List.mem_cons, List.not_mem_nil, or_false] at this
      rcases this with rfl | rfl | rfl | rfl <;> assumption

lemma caller_real (hsz : sz < wordMod) (hnum : num < wordMod) (hbase : base < wordMod) :
    Real (caller sz num base) := by
  refine ⟨⟨(caller sz num base).regs, fun _ => 0, image sz num base⟩,
    ⟨fun r => ?_, image_lt hsz hnum hbase⟩, ?_⟩
  · change (caller sz num base).regs r < wordMod
    rw [caller_regs]
    have h1 : excContMask < wordMod := by decide
    have h2 : (4000 : ℕ) < wordMod := by decide
    split_ifs <;> omega
  · refine congrArg (Cpu.mk · _) (funext fun r => ?_)
    have hr : pc < numRegs ∧ sp < numRegs ∧ rr < numRegs ∧ sr < numRegs := by decide
    change (if r < numRegs then (caller sz num base).regs r else 0) = (caller sz num base).regs r
    rw [caller_regs]
    split_ifs <;> omega

/-- The stack is apart from the other parts of the image. -/
lemma clear_image (h : x ≤ 4000 ∨ 5000 ≤ x) (hx : x < addrSpace) :
    Clear 4000 9 (addr x) := by
  intro i hi heq
  rw [frame, addr, addr, Nat.mod_eq_of_lt hx,
    Nat.mod_eq_of_lt (by unfold addrSpace; omega)] at heq
  omega

lemma caller_call (hsz : sz < wordMod) (hnum : num < wordMod) (hbase : base < wordMod)
    (hn : n ≤ 65) : Call 128 5000 sz num base n (caller sz num base) := by
  have hmem : (caller sz num base).mem = image sz num base := rfl
  have hpc : (caller sz num base).regs pc = 2048 := rfl
  have hsp : (caller sz num base).regs sp = 4000 := rfl
  have hrr : (caller sz num base).regs rr = 3000 := rfl
  have hzr : (caller sz num base).regs zr = 0 := rfl
  have hsr : (caller sz num base).regs sr = excContMask := by simp +decide [caller_regs]
  have hreal := caller_real hsz hnum hbase
  have hlen : wordToStr.length = 70 := rfl
  have haddr {x : ℕ} (hx : x < 2 ^ 60) : addr x = x :=
    Nat.mod_eq_of_lt (by unfold addrSpace; omega)
  have hspace : (2 : ℕ) ^ 60 < addrSpace := by decide
  have hplace {x : ℕ} (hx : x ∈ places 128 2048) : x < 2050 := by
    rcases hx with rfl | rfl | ⟨k, hk, rfl⟩
    · decide
    · decide
    · omega
  generalize caller sz num base = c at *
  refine ⟨hreal, ?_, hzr, ?_, fun ws hws k w hw => ?_, by decide, ?_, ?_, ?_, fun i hi => ?_,
    fun i hi => ?_, fun p hp => ?_⟩
  · rw [hsr]
    decide
  · rw [hpc, hmem]
    intro k i hi
    have hk := (List.getElem?_eq_some_iff.mp hi).1
    rw [show (callb 128).length = 2 from rfl] at hk
    rw [haddr (by omega), image, if_neg (by omega), if_neg (by omega), if_pos (by omega),
      Nat.add_sub_cancel_left]
    simp [wordAt, hi]
  · rw [compile_wordToStr] at hws
    obtain rfl := Option.some.inj hws
    obtain ⟨i, hi, rfl⟩ := Option.map_eq_some_iff.mp (List.getElem?_map .. ▸ hw)
    have hk := (List.getElem?_eq_some_iff.mp hi).1
    rw [hmem, haddr (by omega), image, if_neg (by omega), if_pos (by omega),
      Nat.add_sub_cancel_left]
    simp [wordAt, hi]
  · rw [hpc]
    decide
  · rw [hpc]
    exact fun h => absurd (hplace h) (by omega)
  · rw [hmem, hrr, haddr (by decide), haddr (by decide), haddr (by decide), haddr (by decide)]
    exact ⟨rfl, rfl, rfl, rfl⟩
  · rw [hsp, hrr]
    exact clear_image (.inl (by omega)) (by omega)
  · rw [hsp]
    exact clear_image (.inr (by omega)) (by omega)
  · rw [hpc] at hp
    have := hplace hp
    rw [hsp]
    refine ⟨clear_image (.inl (by omega)) (by omega), fun i hi => ?_⟩
    rw [haddr (by omega), haddr (by omega)]
    omega

/-- The words behind the arguments of the image are zero. -/
lemma caller_behind (hsz : 2 ≤ sz) (hlt : sz < 65) :
    (caller sz num base).mem (addr (5000 + sz)) = 0 := by
  have haddr : addr (5000 + sz) = 5000 + sz := Nat.mod_eq_of_lt (by unfold addrSpace; omega)
  change image sz num base _ = 0
  rw [haddr, image, if_neg (by omega), if_neg (by omega), if_neg (by omega),
    List.getD_eq_default _ _ (by simp only [List.length_cons, List.length_nil]; omega)]

/-! ### Formatting -/

/-- **`word_to_str`** formats a number as `uintn_to_str` does, wherever it is called from, if and
only if the number has no more digits than the base and fits into the buffer, or both fail and the
buffer is no shorter than the base. -/
theorem formats_iff (hnum : num < wordMod) (hsz : 2 ≤ sz ∧ sz < wordMod)
    (hb : 2 ≤ base ∧ base ≤ 36) :
    (∀ q buf c, Call q buf sz num base (usable sz) c → Formats q buf sz num base c) ↔
      Fits sz num base := by
  refine ⟨fun h => by_contra fun hfits => ?_, fun hfits q buf c hc => hc.formats hsz.1 hb hfits⟩
  have hbase : base < wordMod := by
    unfold wordMod
    omega
  exact (caller_call hsz.2 hnum hbase le_rfl).not_formats hsz.1 hb hfits (caller_behind hsz.1)
    (h _ _ _ (caller_call hsz.2 hnum hbase (Nat.min_le_right ..)))

/-- A call for the number `51966` in hexadecimal, with a buffer of `17` words, writes its text. -/
theorem formats_iff_hex : Formats 128 5000 17 51966 16 (caller 17 51966 16) := by
  have hfits : Fits 17 51966 16 := .inl ⟨by norm_num, by norm_num⟩
  exact (formats_iff (by decide) (by decide) (by decide)).mpr hfits _ _ _
    (caller_call (by decide) (by decide) (by decide) (by decide))

/-- The number `4` has three binary digits, and is not written to a buffer of `17` words. -/
theorem binary_not_formatted : ¬ ∀ sz num base, num < wordMod → (2 ≤ sz ∧ sz < wordMod) →
    (2 ≤ base ∧ base ≤ 36) →
      ∀ q buf c, Call q buf sz num base (usable sz) c → Formats q buf sz num base c := by
  intro hall
  have hfits : ¬ Fits 17 4 2 := by
    unfold Fits
    norm_num
  have hcall : Call 128 5000 17 4 2 65 (caller 17 4 2) :=
    caller_call (by decide) (by decide) (by decide) le_rfl
  refine hcall.not_formats (by decide) (by decide) hfits (caller_behind (by decide)) ?_
  exact hall 17 4 2 (by decide) (by decide) (by decide) _ _ _
    (caller_call (by decide) (by decide) (by decide) (by decide))

lemma Call.mono {n' : ℕ} (h : Call q buf sz num base n c) (hn : n' ≤ n) :
    Call q buf sz num base n' c :=
  { h with
    buffer := fun i hi => h.buffer i (hi.trans_le hn)
    apart := fun p hp => ⟨(h.apart p hp).1, fun i hi => (h.apart p hp).2 i (hi.trans_le hn)⟩ }

/-- **Each call** of `word_to_str`, wherever its code, its buffer and its stack are, formats the
number as `uintn_to_str` does under just this condition, if there is a zero behind the buffer. -/
theorem call_formats_iff (h : Call q buf sz num base 65 c) (hsz : 2 ≤ sz)
    (hb : 2 ≤ base ∧ base ≤ 36) (hbehind : sz < 65 → c.mem (addr (buf + sz)) = 0) :
    Formats q buf sz num base c ↔ Fits sz num base := by
  constructor
  · intro hf
    by_contra hfits
    exact h.not_formats hsz hb hfits hbehind hf
  · intro hfits
    exact (h.mono (Nat.min_le_right ..)).formats hsz hb hfits

/-- The call in the image writes `255` in hexadecimal, and does not write `4` in binary. -/
theorem call_formats_iff_image : Formats 128 5000 17 255 16 (caller 17 255 16) ∧
    ¬ Formats 128 5000 17 4 2 (caller 17 4 2) := by
  have hfits : Fits 17 255 16 := .inl ⟨by norm_num, by norm_num⟩
  have hfits' : ¬ Fits 17 4 2 := by
    unfold Fits
    norm_num
  constructor
  · exact (call_formats_iff (caller_call (by decide) (by decide) (by decide) le_rfl) (by decide)
      (by decide) (caller_behind (by decide))).mpr hfits
  · exact mt (call_formats_iff (caller_call (by decide) (by decide) (by decide) le_rfl) (by decide)
      (by decide) (caller_behind (by decide))).mp hfits'

end LispMachine.KernelFormat
