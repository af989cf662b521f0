import LispMachine.AsmDecode
import Mathlib.Tactic.IntervalCases

/-!
What a step of the virtual machine may do.

The opcode field is wider than the table of the instructions, the operands come from the registers
without a test, and the division writes its second result over an operand. Each theorem says for
which instructions a step does what it should all the same.
-/

namespace LispMachine.MachineStep

open LispMachine.Memory LispMachine.Asm LispMachine.Machine
open LispMachine.AsmCorrect LispMachine.AsmDecode

variable {s t : Vm} {f g : ℕ → ℕ} {a b i k op r v w x y : ℕ} {z : ℕ} {retn : Bool}

/-! ### Bounds -/

/-- The state with other registers behind the hidden one, and other arguments behind the last
one. -/
def beyond (f g : ℕ → ℕ) (s : Vm) : Vm where
  regs r := if r ≤ numRegs then s.regs r else f r
  args i := if i < mxRegArgs then s.args i else g i
  mem := s.mem

def mapState (f : Vm → Vm) : Outcome → Outcome
  | .next s => .next (f s)
  | .jump s => .jump (f s)
  | .retn v => .retn v

/-- The word at the program counter. -/
def fetched (s : Vm) : ℕ := s.mem (addr (s.regs pc))

/-- A step stays in bounds: in the table of the instructions, in the arguments, and in the
registers, those behind the hidden one being neither read nor written. It skips an opcode that is
not in the table. -/
structure InBounds (z : ℕ) (retn : Bool) (s : Vm) : Prop where
  opcode : opcodeOf (fetched s) < instructions.length
  count : nArgs (opcodeOf (fetched s)) < mxRegArgs
  args : ∀ i < nArgs (opcodeOf (fetched s)), (decode (fetched s) s).args i ≤ numRegs
  regs : ∀ f g, execute z retn (beyond f g s) = (execute z retn s).map (mapState (beyond f g))
  skip : instructions.length ≤ opcodeOf (fetched s) →
    execute z retn s = some (.jump (s.setReg pc (wadd (s.regs pc) 1)))

lemma update_ite {p : ℕ → Prop} [DecidablePred p] (f g : ℕ → ℕ) (hr : p r) :
    Function.update (fun q => if p q then g q else f q) r v =
      fun q => if p q then Function.update g r v q else f q := by
  funext q
  rcases eq_or_ne q r with rfl | h
  · rw [Function.update_self, if_pos hr, Function.update_self]
  · rw [Function.update_of_ne h, Function.update_of_ne h]

lemma regs_beyond (f g : ℕ → ℕ) (s : Vm) (hr : r ≤ numRegs) :
    (beyond f g s).regs r = s.regs r := if_pos hr

lemma args_beyond (f g : ℕ → ℕ) (s : Vm) (hi : i < mxRegArgs) :
    (beyond f g s).args i = s.args i := if_pos hi

lemma setReg_beyond (f g : ℕ → ℕ) (s : Vm) (hr : r ≤ numRegs) :
    (beyond f g s).setReg r v = beyond f g (s.setReg r v) :=
  congrArg (Vm.mk · _ _) (update_ite (p := (· ≤ numRegs)) f s.regs hr)

lemma arg_beyond (f g : ℕ → ℕ) (s : Vm) (hi : i < mxRegArgs) (ha : s.args i ≤ numRegs) :
    (beyond f g s).arg i = s.arg i := by
  rw [Vm.arg, args_beyond f g s hi, regs_beyond f g s ha, Vm.arg]

lemma argsLoop_beyond (f args : ℕ → ℕ) (hn : k ≤ mxRegArgs) (w : ℕ) :
    argsLoop k w (fun i => if i < mxRegArgs then args i else f i) =
      fun i => if i < mxRegArgs then argsLoop k w args i else f i := by
  induction k generalizing w args with
  | zero => rfl
  | succ k ih =>
    rw [argsLoop, update_ite f args (by omega), ih _ (by omega)]
    rfl

lemma args_le (w : ℕ) (s : Vm) (hi : i < nArgs (opcodeOf w)) : (decode w s).args i ≤ numRegs := by
  have hmod : ∀ x, x % 32 ≤ numRegs := fun x =>
    (Nat.le_of_lt (Nat.mod_lt x (by decide))).trans (by decide)
  rw [decode]
  split_ifs with h
  · dsimp only
    rw [argsLoop_apply]
    split_ifs with h1
    · exact hmod _
    · rw [show i = nArgs (opcodeOf w) - 1 by omega, Function.update_self]
  · dsimp only
    rw [argsLoop_apply, if_pos hi]
    exact hmod _

lemma decode_beyond (f g : ℕ → ℕ) (w : ℕ) (s : Vm) (hn : nArgs (opcodeOf w) < mxRegArgs) :
    decode w (beyond f g s) = beyond f g (decode w s) := by
  rw [decode, decode]
  split_ifs with h
  · have hregs := update_ite (p := (· ≤ numRegs)) (v := immediateOf w (nArgs (opcodeOf w))) f
      s.regs (le_refl numRegs)
    have hargs := update_ite (p := (· < mxRegArgs)) (v := numRegs) g s.args
      (show nArgs (opcodeOf w) - 1 < mxRegArgs by omega)
    simp only [beyond] at hregs hargs ⊢
    rw [hregs, hargs, argsLoop_beyond g _ (by omega)]
  · exact congrArg (Vm.mk _ · _) (argsLoop_beyond g _ hn.le _)

/-- An instruction uses the registers that its arguments name, and some of those with a name. -/
lemma exec_beyond (f g : ℕ → ℕ) (z : ℕ) (retn : Bool) (hop : op < instructions.length)
    (ha : ∀ i < nArgs op, s.args i ≤ numRegs) :
    exec z retn op (beyond f g s) = (exec z retn op s).map (mapState (beyond f g)) := by
  have hargs : ∀ i < 3, ∀ t, (beyond f g t).args i = t.args i := fun i hi t =>
    args_beyond f g t (hi.trans (by decide))
  have hmem : ∀ s : Vm, (beyond f g s).mem = s.mem := fun _ => rfl
  have hwith : ∀ (s : Vm) m, { beyond f g s with mem := m } = beyond f g { s with mem := m } :=
    fun _ _ => rfl
  have harg : ∀ i < nArgs op, ∀ t : Vm, t.args = s.args → (beyond f g t).arg i = t.arg i := by
    intro i hi t ht
    have h3 : nArgs op ≤ 3 := by rcases AsmStep.nArgs_cases hop with h | h <;> omega
    exact arg_beyond f g t ((by omega : i < 3).trans (by decide)) (by rw [ht]; exact ha i hi)
  have hset : ∀ i < nArgs op, ∀ t v, (beyond f g t).setReg (s.args i) v =
    beyond f g (t.setReg (s.args i) v) := fun i hi t v => setReg_beyond f g t (ha i hi)
  have hname : ∀ r, r ≤ numRegs → ∀ t v, (beyond f g t).setReg r v = beyond f g (t.setReg r v) :=
    fun r hr t v => setReg_beyond f g t hr
  have hreg : ∀ r, r ≤ numRegs → ∀ t, (beyond f g t).regs r = t.regs r :=
    fun r hr t => regs_beyond f g t hr
  have hop : op < 16 := hop
  interval_cases op
  case «15» =>
    simp only [exec, exc, harg 0 (by decide) s rfl]
    split_ifs
    · simp (disch := decide) only [hname, hreg, hmem]
      rfl
    · rfl
  all_goals
    have h0 := harg 0 (by decide)
    have h1 := harg 1 (by decide)
    have h2 := harg 2 (by decide)
    have hset₀ := hset 0 (by decide)
  case «0» =>
    simp only [exec, acx, h0 s rfl, h1 s rfl, h2 s rfl, hargs 1 (by decide), hmem, hwith,
      hset 1 (by decide)]
    rfl
  case «3» =>
    simp only [exec, mls, h1 s rfl, h2 s rfl, hargs 0 (by decide), hset₀]
    split_ifs <;> rfl
  case «5» | «6» =>
    simp (disch := decide) only [exec, dvs, dvu, h1 s rfl, h2 s rfl, hargs 0 (by decide), hname]
    rw [h1 (s.setReg _ _) rfl, h2 (s.setReg _ _) rfl]
    split_ifs
    · rfl
    · rfl
    · exact congrArg (fun t => some (Outcome.next t)) (hset₀ _ _)
  case «11» =>
    simp only [exec, shf, h1 s rfl, h2 s rfl, hargs 0 (by decide), hset₀]
    split_ifs <;> rfl
  case «13» =>
    simp only [exec, str, h0 s rfl, h1 s rfl, h2 s rfl, hmem, hwith]
    rfl
  case «14» =>
    simp (disch := decide) only [exec, jnc, h0 s rfl, h1 s rfl, h2 s rfl, hname, hreg]
    split_ifs <;> rfl
  all_goals
    simp only [exec, ldr, h1 s rfl, h2 s rfl, hargs 0 (by decide), hmem, hset₀]
    rfl

/-- **Bounds**: a step stays in bounds if and only if the opcode is one of the table. -/
theorem inBounds_iff (z : ℕ) (retn : Bool) (s : Vm) :
    InBounds z retn s ↔ opcodeOf (fetched s) < instructions.length := by
  refine ⟨InBounds.opcode, fun hop => ?_⟩
  have hcount : nArgs (opcodeOf (fetched s)) < mxRegArgs := by
    rcases AsmStep.nArgs_cases hop with h | h <;> rw [h] <;> decide
  refine ⟨hop, hcount, fun i hi => args_le _ _ hi, fun f g => ?_, fun hle => absurd hop hle.not_gt⟩
  have hfetch : (beyond f g s).mem (addr ((beyond f g s).regs pc)) = fetched s := by
    rw [regs_beyond f g s (by decide)]
    rfl
  rw [execute, hfetch, execute, decode_beyond f g _ s hcount, exec_beyond f g z retn hop
    fun i hi => args_le _ _ hi, Option.map_map, Option.map_map]
  refine congrArg (Option.map · _) (funext fun o => ?_)
  cases o with
  | next t =>
    simp only [Function.comp, mapState, regs_beyond f g t (show pc ≤ numRegs by decide),
      setReg_beyond f g t (show pc ≤ numRegs by decide)]
  | jump t => rfl
  | retn v => rfl

/-- The opcode `16` is the first one behind the table. -/
theorem not_inBounds : ¬ InBounds 1 true ⟨fun _ => 0, fun _ => 0, fun _ => 16 * 2 ^ 56⟩ :=
  fun h => absurd h.opcode (by decide)

/-! ### Words with a sign -/

lemma sword_bounds (hx : x < wordMod) : -2 ^ 63 ≤ sword x ∧ sword x < 2 ^ 63 := by
  unfold sword wordMod at *
  split_ifs <;> omega

lemma toWord_lt (v : ℤ) : toWord v < wordMod := by
  unfold toWord wordMod
  omega

lemma sword_toWord {v : ℤ} (hv : -2 ^ 63 ≤ v ∧ v < 2 ^ 63) : sword (toWord v) = v := by
  unfold sword toWord
  split_ifs <;> omega

lemma sword_eq_zero (hx : x < wordMod) : sword x = 0 ↔ x = 0 := by
  unfold sword wordMod at *
  split_ifs <;> omega

/-- The lowest word by `-1` has no quotient. -/
lemma overflow_iff (hx : x < wordMod) (hy : y < wordMod) :
    x = signBit ∧ y = wordMod - 1 ↔ sword x = -2 ^ 63 ∧ sword y = -1 := by
  rw [show signBit = 2 ^ 63 from rfl]
  unfold sword wordMod at *
  constructor
  · rintro ⟨rfl, rfl⟩
    decide
  · rintro ⟨h1, h2⟩
    split_ifs at h1 h2 <;> omega

lemma tdiv_bounds {u v : ℤ} (hu : -2 ^ 63 ≤ u ∧ u < 2 ^ 63) (hv : v ≠ 0)
    (hno : ¬ (u = -2 ^ 63 ∧ v = -1)) : -2 ^ 63 ≤ u.tdiv v ∧ u.tdiv v < 2 ^ 63 := by
  by_cases hone : v = 1 ∨ v = -1
  · rcases hone with rfl | rfl
    · rwa [Int.tdiv_one]
    · rw [Int.tdiv_neg, Int.tdiv_one]
      omega
  · have habs : (u.tdiv v).natAbs ≤ u.natAbs / 2 := by
      rw [Int.natAbs_tdiv]
      exact Nat.div_le_div_left (by omega) (by decide)
    omega

lemma tmod_bounds {u v : ℤ} (hne : v ≠ 0) (hv : -2 ^ 63 ≤ v ∧ v < 2 ^ 63) :
    -2 ^ 63 ≤ u.tmod v ∧ u.tmod v < 2 ^ 63 := by
  have h1 := Int.natAbs_tmod u v
  have h2 : u.natAbs % v.natAbs < v.natAbs := Nat.mod_lt _ (by omega)
  omega

/-! ### Division -/

/-- The value of a word, for `dvs` with a sign and for `dvu` without one. -/
def operand (op x : ℕ) : ℤ := if op = 5 then sword x else x

/-- A division has a quotient. -/
def Divisible (op x y : ℕ) : Prop :=
  y ≠ 0 ∧ ¬ (op = 5 ∧ x = signBit ∧ y = wordMod - 1)

instance : Decidable (Divisible op x y) := inferInstanceAs (Decidable (_ ∧ _))

/-- The words of the quotient and of the remainder. -/
def quotient (op x y : ℕ) : ℕ := toWord ((operand op x).tdiv (operand op y))
def remainder (op x y : ℕ) : ℕ := toWord ((operand op x).tmod (operand op y))

/-- The division of a decoded instruction leaves the quotient of its operands in the first register,
and the remainder in `rr` unless that is the first register. The registers are those before `++pc`:
where the first one is `pc`, the quotient is there until then. -/
def Divides (z : ℕ) (retn : Bool) (op : ℕ) (s : Vm) : Prop :=
  ∃ t, exec z retn op s = some (.next t) ∧ t.regs (s.args 0) = quotient op (s.arg 1) (s.arg 2) ∧
    (s.args 0 ≠ rr → t.regs rr = remainder op (s.arg 1) (s.arg 2))

lemma toWord_natCast (hx : x < wordMod) : toWord x = x := by
  unfold toWord wordMod at *
  omega

/-- Both divisions take the same steps. -/
lemma exec_division (hop : op = 5 ∨ op = 6) (hs : ∀ r, s.regs r < wordMod) :
    exec z retn op s =
      if Divisible op (s.arg 1) (s.arg 2) then
        let t := s.setReg rr (remainder op (s.arg 1) (s.arg 2))
        if Divisible op (t.arg 1) (t.arg 2) then
          some (.next (t.setReg (s.args 0) (quotient op (t.arg 1) (t.arg 2))))
        else none
      else none := by
  rcases hop with rfl | rfl
  · have hdiv : ∀ x y, Divisible 5 x y ↔ ¬ (y = 0 ∨ x = signBit ∧ y = wordMod - 1) := fun x y => by
      simp [Divisible]
    have hrem : remainder 5 (s.arg 1) (s.arg 2) =
        toWord ((sword (s.arg 1)).tmod (sword (s.arg 2))) := rfl
    simp only [exec, dvs, hdiv, ite_not, hrem]
    split_ifs <;> rfl
  · have hdiv : ∀ x y, Divisible 6 x y ↔ ¬ y = 0 := fun x y => by simp [Divisible]
    have hrem : remainder 6 (s.arg 1) (s.arg 2) = s.arg 1 % s.arg 2 :=
      toWord_natCast ((Nat.mod_le _ _).trans_lt (hs _))
    have hquot : ∀ x y, x < wordMod → quotient 6 x y = x / y := fun x y hx =>
      toWord_natCast ((Nat.div_le_self _ _).trans_lt hx)
    have hregs : (s.setReg rr (s.arg 1 % s.arg 2)).arg 1 < wordMod := by
      unfold Vm.arg Vm.setReg
      dsimp only
      rw [Function.update_apply]
      split_ifs
      · exact (Nat.mod_le _ _).trans_lt (hs _)
      · exact hs _
    simp only [exec, dvu, hdiv, ite_not, hrem, hquot _ _ hregs]
    split_ifs <;> rfl

lemma operand_ne_zero (hop : op = 5 ∨ op = 6) (hy : y < wordMod) : operand op y ≠ 0 ↔ y ≠ 0 := by
  rcases hop with rfl | rfl
  · exact not_congr (sword_eq_zero hy)
  · exact not_congr Int.natCast_eq_zero

/-- The quotient of a division that has one is an operand again, and so is the remainder. -/
lemma operand_results (hop : op = 5 ∨ op = 6) (hx : x < wordMod) (hy : y < wordMod)
    (hd : Divisible op x y) :
    operand op (quotient op x y) = (operand op x).tdiv (operand op y) ∧
      operand op (remainder op x y) = (operand op x).tmod (operand op y) := by
  rcases hop with rfl | rfl
  · obtain ⟨hne, hno⟩ := hd
    rw [not_and, overflow_iff hx hy] at hno
    have hx' := sword_bounds hx
    have hy' := sword_bounds hy
    have hne' := (sword_eq_zero hy).not.mpr hne
    exact ⟨sword_toWord (tdiv_bounds hx' hne' (hno rfl)),
      sword_toWord (tmod_bounds hne' hy')⟩
  · exact ⟨congrArg Nat.cast (toWord_natCast ((Nat.div_le_self x y).trans_lt hx)),
      congrArg Nat.cast (toWord_natCast ((Nat.mod_le x y).trans_lt hx))⟩

lemma setReg_self (s : Vm) (r v : ℕ) : (s.setReg r v).regs r = v := Function.update_self ..

lemma setReg_of_ne (s : Vm) (h : x ≠ r) : (s.setReg r v).regs x = s.regs x :=
  Function.update_of_ne h _ _

lemma arg_setReg (s : Vm) (r v i : ℕ) :
    (s.setReg r v).arg i = if s.args i = r then v else s.arg i :=
  Function.update_apply s.regs r v (s.args i)

/-- The remainder goes into the dividend more often than the divisor. -/
lemma div_lt_div_mod {m n : ℕ} (hm : 0 < m) (hr : n % m ≠ 0) : n / m < n / (n % m) := by
  refine (Nat.le_div_iff_mul_le (Nat.pos_of_ne_zero hr)).mpr ?_
  calc (n / m + 1) * (n % m) = n / m * (n % m) + n % m := Nat.succ_mul ..
    _ ≤ n / m * m + n % m :=
      Nat.add_le_add_right (Nat.mul_le_mul_left _ (Nat.mod_lt n hm).le) _
    _ = n := Nat.div_add_mod' n m

/-- The remainder in place of the divisor: there is no quotient, or another one. -/
lemma quotient_remainder_ne (hop : op = 5 ∨ op = 6) (hx : x < wordMod) (hy : y < wordMod)
    (hd : Divisible op x y) (hd' : Divisible op x (remainder op x y)) :
    quotient op x (remainder op x y) ≠ quotient op x y := by
  have hlt : remainder op x y < wordMod := toWord_lt _
  obtain ⟨hquot, hrem⟩ := operand_results hop hx hy hd
  obtain ⟨hquot', -⟩ := operand_results hop hx hlt hd'
  have hne := (operand_ne_zero hop hlt).mpr hd'.1
  rw [hrem] at hne hquot'
  intro heq
  have habs := congrArg Int.natAbs (hquot'.symm.trans ((congrArg _ heq).trans hquot))
  rw [Int.natAbs_tdiv, Int.natAbs_tdiv, Int.natAbs_tmod] at habs
  refine (div_lt_div_mod ?_ ?_).ne habs.symm
  · exact Int.natAbs_pos.mpr ((operand_ne_zero hop hy).mpr hd.1)
  · rwa [← Int.natAbs_tmod, Int.natAbs_ne_zero]

/-- The remainder in place of the dividend: the quotient is zero. -/
lemma quotient_of_remainder (hop : op = 5 ∨ op = 6) (hx : x < wordMod) (hy : y < wordMod)
    (hd : Divisible op x y) :
    Divisible op (remainder op x y) y ∧ (quotient op (remainder op x y) y = quotient op x y ↔
      (operand op x).natAbs < (operand op y).natAbs) := by
  have hlt : remainder op x y < wordMod := toWord_lt _
  obtain ⟨hquot, hrem⟩ := operand_results hop hx hy hd
  have hpos := Int.natAbs_pos.mpr ((operand_ne_zero hop hy).mpr hd.1)
  have hd' : Divisible op (remainder op x y) y := by
    refine ⟨hd.1, ?_⟩
    rintro ⟨rfl, hover⟩
    obtain ⟨h1, h2⟩ := (overflow_iff hlt hy).mp hover
    have h3 : sword (remainder 5 x y) = (sword x).tmod (sword y) := hrem
    rw [h1, h2, Int.tmod_neg, Int.tmod_one] at h3
    exact absurd h3 (by decide)
  refine ⟨hd', ?_⟩
  obtain ⟨hquot', -⟩ := operand_results hop hlt hy hd'
  have hzero : (operand op (quotient op (remainder op x y) y)).natAbs = 0 := by
    rw [hquot', hrem, Int.natAbs_tdiv, Int.natAbs_tmod]
    exact Nat.div_eq_of_lt (Nat.mod_lt _ hpos)
  have habs : (operand op (quotient op x y)).natAbs =
      (operand op x).natAbs / (operand op y).natAbs := by
    rw [hquot, Int.natAbs_tdiv]
    rfl
  constructor
  · intro heq
    rw [heq, habs] at hzero
    exact (Nat.div_eq_zero_iff.mp hzero).resolve_left hpos.ne'
  · intro hlt'
    rw [Nat.div_eq_of_lt hlt', Int.natAbs_eq_zero] at habs
    rw [Int.natAbs_eq_zero] at hzero
    rw [hquot] at habs
    rw [hquot'] at hzero
    rw [quotient, quotient, hzero, habs]

/-- **Division**: the results are those of the operands that were given, if and only if `rr` is not
the divisor, and is the dividend only if that is smaller than the divisor. -/
theorem divides_iff (z : ℕ) (retn : Bool) (hop : op = 5 ∨ op = 6) (hs : ∀ r, s.regs r < wordMod)
    (hd : Divisible op (s.arg 1) (s.arg 2)) : Divides z retn op s ↔ s.args 2 ≠ rr ∧
      (s.args 1 = rr → (operand op (s.arg 1)).natAbs < (operand op (s.arg 2)).natAbs) := by
  have harg : ∀ i, s.arg i < wordMod := fun i => hs _
  rw [Divides, exec_division hop hs, if_pos hd]
  dsimp only
  rw [arg_setReg, arg_setReg]
  by_cases h2 : s.args 2 = rr
  · rw [if_pos h2]
    refine iff_of_false ?_ fun h => h.1 h2
    rintro ⟨t, ht, hregs, -⟩
    split_ifs at ht with h1 hd' hd'
    · -- both operands are `rr`
      have hsame : s.arg 1 = s.arg 2 := by rw [Vm.arg, h1, Vm.arg, h2]
      refine hd'.1 ?_
      rw [hsame, remainder, Int.tmod_self]
      rfl
    · obtain rfl := Outcome.next.inj (Option.some.inj ht)
      refine quotient_remainder_ne hop (harg 1) (harg 2) hd hd' ?_
      rw [← hregs, setReg_self]
  · rw [if_neg h2]
    have hdone : ∀ q, (∃ t, some (Outcome.next ((s.setReg rr (remainder op (s.arg 1)
        (s.arg 2))).setReg (s.args 0) q)) = some (Outcome.next t) ∧
          t.regs (s.args 0) = quotient op (s.arg 1) (s.arg 2) ∧
          (s.args 0 ≠ rr → t.regs rr = remainder op (s.arg 1) (s.arg 2))) ↔
        q = quotient op (s.arg 1) (s.arg 2) := by
      intro q
      constructor
      · rintro ⟨t, ht, hregs, -⟩
        obtain rfl := Outcome.next.inj (Option.some.inj ht)
        rw [← hregs, setReg_self]
      · rintro rfl
        refine ⟨_, rfl, setReg_self .., fun h0 => ?_⟩
        rw [setReg_of_ne _ h0.symm, setReg_self]
    by_cases h1 : s.args 1 = rr
    · obtain ⟨hd', hiff⟩ := quotient_of_remainder hop (harg 1) (harg 2) hd
      rw [if_pos h1, if_pos hd', hdone, hiff]
      simp [h1, h2]
    · rw [if_neg h1, if_pos hd, hdone]
      simp [h1, h2]

theorem divides_iff_seven : Divides 1 true 5 ⟨fun r => if r = 1 then wordMod - 7 else 2,
    fun i => if i = 0 then rr else i, fun _ => 0⟩ :=
  (divides_iff 1 true (.inl rfl) (fun r => by dsimp only; split_ifs <;> decide)
    (by decide)).mpr (by decide)

/-- `dvu r1d r0 r1d` with the operands `7` and `2`: the remainder `1` becomes the divisor. -/
theorem not_divides : ¬ Divides 1 true 6 (decode 0x86e83a0000000000
    ⟨fun r => if r = 0 then 7 else 2, fun _ => 0, fun _ => 0⟩) := by
  rintro ⟨t, ht, hregs, -⟩
  obtain rfl := Outcome.next.inj (Option.some.inj ht)
  revert hregs
  decide

/-! ### Arithmetic -/

/-- A word shifted by a signed amount: to the left where that is negative. -/
def shifted (x : ℕ) (v : ℤ) : ℕ :=
  if v < 0 then x * 2 ^ v.natAbs % wordMod else x / 2 ^ v.natAbs

lemma abs_eq (hx : x < wordMod) : Machine.abs x = (sword x).natAbs := by
  have hbit : x >>> (bits - 1) &&& 1 = x / 2 ^ 63 % 2 := by
    rw [Nat.and_one_is_mod, Nat.shiftRight_eq_div_pow]
    rfl
  rw [Machine.abs, hbit]
  unfold sword wadd wnot wordMod at *
  split_ifs <;> omega

lemma min_abs (hx : x < wordMod) : Machine.min (Machine.abs x) bits =
    if (sword x).natAbs < 64 then (sword x).natAbs
    else if sword x = -2 ^ 63 then 2 ^ 63 else 64 := by
  have hb := sword_bounds hx
  rw [abs_eq hx, Machine.min, show bits = 64 from rfl]
  generalize sword x = v at *
  unfold sword
  split_ifs <;> omega

/-- `shf` is defined for the amounts below the width of a word. -/
lemma shf_eq (hs : ∀ r, s.regs r < wordMod) : Machine.shf s =
    if (sword (s.arg 2)).natAbs < 64 then
      some (s.setReg (s.args 0) (shifted (s.arg 1) (sword (s.arg 2))))
    else none := by
  have hx : s.arg 2 < wordMod := hs _
  rw [Machine.shf, min_abs hx, show bits = 64 from rfl]
  by_cases hlt : (sword (s.arg 2)).natAbs < 64
  · rw [if_pos hlt, if_pos hlt, if_neg (by omega), wshl, Nat.shiftLeft_eq,
      Nat.shiftRight_eq_div_pow, shifted]
    split_ifs <;> rfl
  · rw [if_neg hlt, if_neg hlt, if_pos (by split_ifs <;> decide)]

/-- The arithmetic of a decoded instruction is defined: the opcode is one of the table, a signed
product is a signed word, a division has a quotient, also with the remainder in `rr`, and a shift is
by less than the width of a word. -/
structure Arithmetic (op : ℕ) (s : Vm) : Prop where
  opcode : op < instructions.length
  product : op = 3 → -2 ^ 63 ≤ sword (s.arg 1) * sword (s.arg 2) ∧
    sword (s.arg 1) * sword (s.arg 2) < 2 ^ 63
  division : op = 5 ∨ op = 6 → Divisible op (s.arg 1) (s.arg 2) ∧
    (s.args 2 = rr → Divisible op (s.arg 1) (remainder op (s.arg 1) (s.arg 2)))
  shift : op = 11 → (sword (s.arg 2)).natAbs < 64

lemma exec_division_isSome (hop : op = 5 ∨ op = 6) (hs : ∀ r, s.regs r < wordMod) :
    (exec z retn op s).isSome ↔ Divisible op (s.arg 1) (s.arg 2) ∧
      (s.args 2 = rr → Divisible op (s.arg 1) (remainder op (s.arg 1) (s.arg 2))) := by
  have harg : ∀ i, s.arg i < wordMod := fun i => hs _
  rw [exec_division hop hs]
  by_cases hd : Divisible op (s.arg 1) (s.arg 2)
  · have hright := quotient_of_remainder hop (harg 1) (harg 2) hd
    rw [if_pos hd]
    dsimp only
    rw [arg_setReg, arg_setReg]
    by_cases h2 : s.args 2 = rr
    · rw [if_pos h2]
      by_cases h1 : s.args 1 = rr
      · -- both operands are `rr`, and the remainder is zero
        have hzero : remainder op (s.arg 1) (s.arg 2) = 0 := by
          rw [show s.arg 1 = s.arg 2 by rw [Vm.arg, h1, Vm.arg, h2], remainder, Int.tmod_self]
          rfl
        have hno : ∀ x, ¬ Divisible op x 0 := fun x hx => hx.1 rfl
        simp [hzero, hno, h2]
      · rw [if_neg h1]
        split_ifs with hd' <;> simp [hd', hd, h2]
    · rw [if_neg h2]
      by_cases h1 : s.args 1 = rr
      · rw [if_pos h1, if_pos hright.1]
        simp [hd, h2]
      · rw [if_neg h1, if_pos hd]
        simp [hd, h2]
  · simp [hd]

lemma exec_none (hop : instructions.length ≤ op) : exec z retn op s = none := by
  obtain ⟨k, rfl⟩ : ∃ k, op = k + 16 := ⟨op - 16, by
    have : instructions.length = 16 := rfl
    omega⟩
  rfl

lemma exec_isSome (z : ℕ) (retn : Bool) (hs : ∀ r, s.regs r < wordMod) :
    (exec z retn op s).isSome ↔ Arithmetic op s := by
  rcases le_or_gt instructions.length op with hop | hop
  · rw [exec_none hop]
    exact iff_of_false (by simp) fun h => absurd h.opcode hop.not_gt
  by_cases hdiv : op = 5 ∨ op = 6
  · rw [exec_division_isSome hdiv hs]
    exact ⟨fun h => ⟨hop, by omega, fun _ => h, by omega⟩, fun h => h.division hdiv⟩
  by_cases hmul : op = 3
  · have hexec : (exec z retn 3 s).isSome ↔ -2 ^ 63 ≤ sword (s.arg 1) * sword (s.arg 2) ∧
        sword (s.arg 1) * sword (s.arg 2) < 2 ^ 63 := by
      rw [exec, mls]
      split_ifs with h
      · exact iff_of_true rfl h
      · exact iff_of_false (by simp) h
    subst hmul
    rw [hexec]
    exact ⟨fun h => ⟨hop, fun _ => h, by omega, by omega⟩, fun h => h.product rfl⟩
  by_cases hshf : op = 11
  · subst hshf
    have hexec : (exec z retn 11 s).isSome ↔ (sword (s.arg 2)).natAbs < 64 := by
      rw [exec, shf_eq hs]
      split_ifs with h <;> simp [h]
    rw [hexec]
    exact ⟨fun h => ⟨hop, by omega, by omega, fun _ => h⟩, fun h => h.shift rfl⟩
  · refine iff_of_true ?_ ⟨hop, fun h => absurd h hmul, fun h => absurd h hdiv,
      fun h => absurd h hshf⟩
    have hop : op < 16 := hop
    interval_cases op <;> first | rfl | omega

lemma immediateOf_lt (w n : ℕ) : immediateOf w n < wordMod := by
  have hmask : w &&& getFlxOpMask n < wordMod := by
    refine Nat.and_le_right.trans_lt ?_
    rw [getFlxOpMask, Nat.shiftRight_eq_div_pow]
    exact (Nat.div_le_self _ _).trans_lt (by decide)
  rw [immediateOf]
  split_ifs
  · exact Nat.or_lt_two_pow hmask (Nat.mod_lt _ (by decide))
  · exact hmask

lemma decode_regs (w : ℕ) (hs : ∀ r, s.regs r < wordMod) (r : ℕ) :
    (decode w s).regs r < wordMod := by
  rw [decode]
  split_ifs
  · dsimp only
    rw [Function.update_apply]
    split_ifs
    · exact immediateOf_lt ..
    · exact hs r
  · exact hs r

/-- The step is defined, and a shift gives the word shifted by the signed amount. -/
def Computes (z : ℕ) (retn : Bool) (s : Vm) : Prop :=
  (execute z retn s).isSome ∧ (opcodeOf (fetched s) = 11 →
    let d := decode (fetched s) s
    exec z retn 11 d = some (.next (d.setReg (d.args 0) (shifted (d.arg 1) (sword (d.arg 2))))))

/-- **Arithmetic**: a step is defined if and only if that of the instruction is, and then a shift is
right. -/
theorem computes_iff (z : ℕ) (retn : Bool) (hs : ∀ r, s.regs r < wordMod) :
    Computes z retn s ↔ Arithmetic (opcodeOf (fetched s)) (decode (fetched s) s) := by
  have hd := decode_regs (fetched s) hs
  have hsome : (execute z retn s).isSome ↔
      Arithmetic (opcodeOf (fetched s)) (decode (fetched s) s) := by
    rw [← exec_isSome z retn hd, execute, Option.isSome_map]
    rfl
  rw [Computes, hsome]
  refine and_iff_left_of_imp fun h hop => ?_
  change (Machine.shf _).map Outcome.next = _
  rw [shf_eq hd, if_pos (h.shift hop)]
  rfl

/-- `shf r0 r1 r2` of `5` with the amount `-63`. -/
theorem computes_iff_shift : Computes 1 true
    ⟨fun r => if r = 2 then wordMod - 63 else if r = 1 then 5 else 0, fun _ => 0,
      fun _ => 0x8b00440000000000⟩ :=
  (computes_iff 1 true fun r => by dsimp only; split_ifs <;> decide).mpr
    ⟨by decide, by decide, by decide, by decide⟩

/-- `shf r0 r1 r2` with the amount `64`. -/
theorem not_computes : ¬ Computes 1 true
    ⟨fun r => if r = 2 then 64 else 0, fun _ => 0, fun _ => 0x8b00440000000000⟩ :=
  fun h => absurd h.1 (by decide)

end LispMachine.MachineStep
