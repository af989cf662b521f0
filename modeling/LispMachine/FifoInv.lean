import LispMachine.Fifo

/-!
The exception FIFO loses, duplicates and reorders nothing, wherever it is interrupted.

A buffer holds items with their numbers, from the one to be taken next on. The two buffers
together hold those that have been added and not yet taken; the tag of an item is its number,
and so the tags tell which buffer has the next item.
-/

namespace LispMachine.FifoInv

open LispMachine.Memory LispMachine.Fifo LispMachine.Lib.Run LispMachine.Lib.Ring

/-- An item and its number. -/
abbrev Item := List ℕ × ℕ

/-- The words of an item in a buffer. -/
def words (e : Item) : List ℕ := e.2 % wordMod :: e.1

/-- The buffer holds the items. -/
structure Holds (rb : RingBuf) (q : List Item) : Prop where
  window : Window rb.capacity rb.head rb.tail q.length
  words : ∀ j e, q[j]? = some e → ∀ i < rb.itemSz,
    rb.buf (rb.itemSz * slot rb.capacity rb.tail j + i) = (words e).getD i 0

/-! ### One buffer -/

lemma copyItem_out {buf : ℕ → ℕ} {ptr n a : ℕ} {item : List ℕ} (h : a < ptr ∨ ptr + n ≤ a) :
    copyItem buf ptr item n a = buf a := by
  induction n with
  | zero => rfl
  | succ n ih =>
    rw [copyItem, Function.update_of_ne (by omega)]
    exact ih (by omega)

lemma copyItem_in {buf : ℕ → ℕ} {ptr n i : ℕ} {item : List ℕ} (h : i < n) :
    copyItem buf ptr item n (ptr + i) = item.getD i 0 := by
  induction n with
  | zero => omega
  | succ n ih =>
    rw [copyItem]
    by_cases hi : i = n
    · subst hi
      exact Function.update_self ..
    · rw [Function.update_of_ne (by omega)]
      exact ih (by omega)

/-- The words of different slots are different. -/
lemma slot_words {k s t i : ℕ} (hi : i < k) (h : s ≠ t) :
    k * s + i < k * t ∨ k * t + k ≤ k * s + i := by
  rcases Nat.lt_or_gt_of_ne h with h | h
  · left
    calc k * s + i < k * (s + 1) := by rw [Nat.mul_succ]; omega
      _ ≤ k * t := Nat.mul_le_mul_left k h
  · right
    calc k * t + k = k * (t + 1) := (Nat.mul_succ k t).symm
      _ ≤ k * s := Nat.mul_le_mul_left k h
      _ ≤ k * s + i := Nat.le_add_right ..

namespace Holds

variable {rb : RingBuf} {q : List Item} {e : Item}

lemma isempty_iff (h : Holds rb q) (ht : rb.tail < rb.capacity) :
    ringBufIsempty rb = true ↔ q = [] := by
  rw [ringBufIsempty, decide_eq_true_iff, h.window.eq_iff ht, List.length_eq_zero_iff]

lemma isfull_iff (h : Holds rb q) (hc : rb.capacity ≤ addrSpace) :
    ringBufIsfull rb = true ↔ q.length + 1 = rb.capacity := by
  have hspace : addrSpace + addrSpace < wordMod := by decide
  have h1 := h.window.tail_le
  have h2 := h.window.lt
  rw [ringBufIsfull, decide_eq_true_iff, wsub_eq (by omega) (by omega), wadd_eq (by omega)]
  exact h.window.full_iff

/-- The next item is at the tail. -/
lemma front (h : Holds rb (e :: q)) (ht : rb.tail < rb.capacity) {i : ℕ} (hi : i < rb.itemSz) :
    rb.buf (rb.itemSz * rb.tail + i) = (FifoInv.words e).getD i 0 := by
  have := h.words 0 e rfl i hi
  rwa [slot_zero ht] at this

/-- **Adding** to a buffer that is not full. -/
lemma add (h : Holds rb q) (hc : rb.capacity ≤ addrSpace) (hf : q.length + 1 ≠ rb.capacity)
    (e : Item) : Holds (ringBufAdd rb (FifoInv.words e)) (q ++ [e]) := by
  have hspace : addrSpace < wordMod := by decide
  have hlt := h.window.lt
  have hhead := h.window.head_lt
  constructor
  · have h1 := h.window.add (by omega)
    rw [← wadd_eq (x := rb.head) (y := 1) (by omega)] at h1
    simpa [ringBufAdd] using h1
  · intro j e' he' i hi
    replace hi : i < rb.itemSz := hi
    change copyItem rb.buf (rb.itemSz * rb.head) (FifoInv.words e) rb.itemSz
      (rb.itemSz * slot rb.capacity rb.tail j + i) = _
    by_cases hj : j < q.length
    · have hne : slot rb.capacity rb.tail j ≠ rb.head := fun heq => by
        rw [h.window.head_eq] at heq
        have := slot_inj h.window.tail_le (by omega) (by omega) heq
        omega
      rw [List.getElem?_append_left hj] at he'
      rw [copyItem_out (slot_words hi hne)]
      exact h.words j e' he' i hi
    · have hlast : j < (q ++ [e]).length := (List.getElem?_eq_some_iff.mp he').1
      rw [List.length_append, List.length_singleton] at hlast
      obtain rfl : j = q.length := by omega
      obtain rfl : e = e' := by simpa using he'
      rw [← h.window.head_eq, copyItem_in hi]

/-- **Taking** the next item. -/
lemma take (h : Holds rb (e :: q)) (hc : rb.capacity ≤ addrSpace) (ht : rb.tail < rb.capacity) :
    Holds { rb with tail := wadd rb.tail 1 } q := by
  have hspace : addrSpace < wordMod := by decide
  rw [wadd_eq (by omega)]
  refine ⟨h.window.take ht, fun j e' he' i hi => ?_⟩
  simp only [slot_succ]
  exact h.words (j + 1) e' he' i hi

lemma wrap (h : Holds rb q) :
    Holds { rb with tail := if rb.capacity ≤ rb.tail then 0 else rb.tail } q := by
  refine ⟨h.window.wrap, fun j e' he' i hi => ?_⟩
  simp only [slot_wrap h.window.tail_le]
  exact h.words j e' he' i hi

end Holds

/-! ### The invariant -/

/-- Whether an item has been taken out of its buffer and not yet counted. -/
def inHand : Pc → ℕ
  | .wrap .. | .unlock .. | .out .. | .incTag .. => 1
  | _ => 0

/-- The items that pops have returned, or are about to. -/
def taken (s : St) : List (List ℕ) := s.popped ++ returned s.pc

/-- What holds of the local variables of a pop, with `q` in the buffers. -/
def At (n : ℕ) (cf : ConcurrentFifo) (q : Which → List Item) (added : List (List ℕ)) (k : ℕ) :
    Pc → Prop
  | .idle | .ptrA | .ret _ => True
  | .ptrB a => a = (n + 1) * (cf.ring .A).tail
  | .tag a b => a = (n + 1) * (cf.ring .A).tail ∧ b = (n + 1) * (cf.ring .B).tail
  | .isempty _ a b c =>
    a = (n + 1) * (cf.ring .A).tail ∧ b = (n + 1) * (cf.ring .B).tail ∧ c = cf.currTag
  | .test w a b c => a = (n + 1) * (cf.ring .A).tail ∧ b = (n + 1) * (cf.ring .B).tail ∧
    c = cf.currTag ∧ q w ≠ []
  | .lock w => ∃ x, (q w).head? = some (x, k)
  | .enter w => cf.lck w ≠ 0 ∧ ∃ x, (q w).head? = some (x, k)
  | .copy w ptr tagged => cf.lck w ≠ 0 ∧ ptr = (n + 1) * (cf.ring w).tail ∧
    ∃ x, (q w).head? = some (x, k) ∧ tagged <+: words (x, k)
  | .incTail w tagged => cf.lck w ≠ 0 ∧ ∃ x, (q w).head? = some (x, k) ∧ tagged = words (x, k)
  | .wrap w tagged => cf.lck w ≠ 0 ∧ ∃ x, added[k]? = some x ∧ tagged = words (x, k)
  | .unlock _ tagged => ∃ x, added[k]? = some x ∧ tagged = words (x, k)
  | .out tagged item => ∃ x, added[k]? = some x ∧ tagged = words (x, k) ∧ item <+: x
  | .incTag item => added[k]? = some item

/-- The tail of a buffer lies within it, but for a moment. -/
def Tail (cf : ConcurrentFifo) (pc : Pc) (w : Which) : Prop :=
  (cf.ring w).tail < (cf.ring w).capacity ∨ ∃ tagged, pc = .wrap w tagged

/-- **The invariant** of the FIFO. -/
structure Inv (capacity : Which → ℕ) (n : ℕ) (s : St) (q : Which → List Item) : Prop where
  fits : capacity .A + capacity .B ≤ addrSpace
  itemSz : ∀ w, (s.cf.ring w).itemSz = n + 1
  capacity : ∀ w, (s.cf.ring w).capacity = capacity w
  holds : ∀ w, Holds (s.cf.ring w) (q w)
  tail : ∀ w, Tail s.cf s.pc w
  length : ∀ x ∈ s.added, x.length = n
  tag : s.cf.tag = s.added.length % wordMod
  currTag : s.cf.currTag = (taken s).length % wordMod
  popped : taken s <+: s.added
  pending : (q .A ++ q .B).Perm (s.added.zipIdx.drop ((taken s).length + inHand s.pc))
  pc : At n s.cf q s.added (taken s).length s.pc

/-- The items not yet taken. -/
lemma mem_pending {L : List (List ℕ)} {e : Item} {k : ℕ} :
    e ∈ L.zipIdx.drop k ↔ k ≤ e.2 ∧ L[e.2]? = some e.1 := by
  obtain ⟨x, j⟩ := e
  simp only [List.mem_iff_getElem?, List.getElem?_drop, List.getElem?_zipIdx, Nat.zero_add,
    Option.map_eq_some_iff, Prod.mk.injEq]
  constructor
  · rintro ⟨i, a, h1, rfl, rfl⟩
    exact ⟨by omega, h1⟩
  · rintro ⟨h1, h2⟩
    exact ⟨j - k, x, by rwa [Nat.add_sub_cancel' h1], rfl, by omega⟩

namespace Inv

variable {capacity : Which → ℕ} {n : ℕ} {s : St} {q : Which → List Item}

lemma capacity_le (h : Inv capacity n s q) (w : Which) :
    (s.cf.ring w).capacity ≤ addrSpace := by
  have := h.fits
  rw [h.capacity w]
  cases w <;> omega

/-- There are fewer pending items than tags. -/
lemma length_pending (h : Inv capacity n s q) :
    s.added.length - ((taken s).length + inHand s.pc) < addrSpace := by
  have h1 := h.pending.length_eq
  have h2 := (h.holds .A).window.lt
  have h3 := (h.holds .B).window.lt
  have h4 := h.fits
  rw [h.capacity] at h2 h3
  rw [List.length_append, List.length_drop, List.length_zipIdx] at h1
  omega

/-- The tag shows whether an item is the next one. -/
lemma eq_next (h : Inv capacity n s q) (h0 : inHand s.pc = 0) {w : Which} {e : Item}
    (he : e ∈ q w) (ht : s.cf.currTag = e.2 % wordMod) : e.2 = (taken s).length := by
  have hmem : e ∈ q .A ++ q .B := by
    cases w
    · exact List.mem_append_left _ he
    · exact List.mem_append_right _ he
  obtain ⟨h1, h2⟩ := mem_pending.mp (h.pending.subset hmem)
  have h3 := (List.getElem?_eq_some_iff.mp h2).1
  have h4 := h.length_pending
  have h5 := h.currTag
  unfold addrSpace at h4
  unfold wordMod at ht h5
  omega

end Inv

/-! ### An interrupt -/

lemma add_cases (cf : ConcurrentFifo) (item : List ℕ) :
    (∃ w, cf.lck w = 0 ∧ ringBufIsfull (cf.ring w) ≠ true ∧ concurrentFifoAdd cf item =
      ({ cf with tag := wadd cf.tag 1 }.setRing w (ringBufAdd (cf.ring w) (cf.tag :: item)), 0)) ∨
    (∀ w, cf.lck w ≠ 0 ∨ ringBufIsfull (cf.ring w) = true) ∧
      concurrentFifoAdd cf item = ({ cf with tag := wsub (wadd cf.tag 1) 1 }, 1) := by
  unfold concurrentFifoAdd
  dsimp only
  split_ifs with h1 h2
  · exact .inl ⟨.A, h1.1, by simpa using h1.2, rfl⟩
  · exact .inl ⟨.B, h2.1, by simpa using h2.2, rfl⟩
  · refine .inr ⟨fun w => ?_, rfl⟩
    rw [Bool.not_eq_true'] at h1 h2
    cases w
    · by_contra hc
      exact h1 (by simpa using hc)
    · by_contra hc
      exact h2 (by simpa using hc)

/-- Adding to the buffers does not disturb a pop. -/
lemma At.mono {n k : ℕ} {cf cf' : ConcurrentFifo} {q q' : Which → List Item}
    {added added' : List (List ℕ)} {pc : Pc} (h : At n cf q added k pc)
    (ht : ∀ w, (cf'.ring w).tail = (cf.ring w).tail) (hl : cf'.lck = cf.lck)
    (hc : cf'.currTag = cf.currTag) (hq : ∀ w, q w <+: q' w) (ha : added <+: added') :
    At n cf' q' added' k pc := by
  have hhead : ∀ w e, (q w).head? = some e → (q' w).head? = some e := by
    intro w e he
    obtain ⟨r, hr⟩ := hq w
    rw [← hr, List.head?_append, he]
    rfl
  have hadd : ∀ x, added[k]? = some x → added'[k]? = some x := by
    intro x hx
    obtain ⟨r, rfl⟩ := ha
    rwa [List.getElem?_append_left (List.getElem?_eq_some_iff.mp hx).1]
  cases pc with
  | idle | ptrA | ret => trivial
  | ptrB a | tag a b | isempty w a b c =>
    simp only [At, ht, hc] at h ⊢
    exact h
  | test w a b c =>
    simp only [At, ht, hc] at h ⊢
    refine ⟨h.1, h.2.1, h.2.2.1, fun h0 => h.2.2.2 ?_⟩
    exact List.prefix_nil.mp (h0 ▸ hq w)
  | lock w => exact h.imp fun x hx => hhead w _ hx
  | enter w =>
    simp only [At, hl] at h ⊢
    exact ⟨h.1, h.2.imp fun x hx => hhead w _ hx⟩
  | copy w ptr tagged =>
    simp only [At, hl, ht] at h ⊢
    exact ⟨h.1, h.2.1, h.2.2.imp fun x hx => ⟨hhead w _ hx.1, hx.2⟩⟩
  | incTail w tagged =>
    simp only [At, hl] at h ⊢
    exact ⟨h.1, h.2.imp fun x hx => ⟨hhead w _ hx.1, hx.2⟩⟩
  | wrap w tagged =>
    simp only [At, hl] at h ⊢
    exact ⟨h.1, h.2.imp fun x hx => ⟨hadd x hx.1, hx.2⟩⟩
  | unlock w tagged => exact h.imp fun x hx => ⟨hadd x hx.1, hx.2⟩
  | out tagged item => exact h.imp fun x hx => ⟨hadd x hx.1, hx.2⟩
  | incTag item => exact hadd item h

namespace Inv

variable {capacity : Which → ℕ} {n : ℕ} {s : St} {q : Which → List Item}

lemma taken_le (h : Inv capacity n s q) :
    (taken s).length + inHand s.pc ≤ s.added.length := by
  have h1 := h.popped.length_le
  have h2 := h.pc
  have hlt : ∀ x, s.added[(taken s).length]? = some x → (taken s).length + 1 ≤ s.added.length :=
    fun x hx => (List.getElem?_eq_some_iff.mp hx).1
  generalize s.pc = pc at h2 ⊢
  cases pc with
  | wrap w tagged => exact hlt _ h2.2.choose_spec.1
  | unlock w tagged => exact hlt _ h2.choose_spec.1
  | out tagged item => exact hlt _ h2.choose_spec.1
  | incTag item => exact hlt _ h2
  | _ => exact h1

lemma tag_lt (h : Inv capacity n s q) : s.cf.tag < wordMod := by
  rw [h.tag]
  exact Nat.mod_lt _ (by decide)

/-- **Adding**: the item is put into a buffer, or both are full or locked. -/
lemma add (h : Inv capacity n s q) {item : List ℕ} (hn : item.length = n) :
    (concurrentFifoAdd s.cf item = (s.cf, 1) ∧
      ∀ w, s.cf.lck w ≠ 0 ∨ (q w).length + 1 = capacity w) ∨
    ∃ cf' q', concurrentFifoAdd s.cf item = (cf', 0) ∧
      Inv capacity n ⟨cf', s.pc, s.added ++ [item], s.popped⟩ q' := by
  have hspace : addrSpace < wordMod := by decide
  rcases add_cases s.cf item with ⟨w, h1, h2, h3⟩ | ⟨h1, h2⟩
  · right
    have hfull : (q w).length + 1 ≠ (s.cf.ring w).capacity := fun hc =>
      h2 (((h.holds w).isfull_iff (h.capacity_le w)).mpr hc)
    have hput := (h.holds w).add (h.capacity_le w) hfull (item, s.added.length)
    have hwords : words (item, s.added.length) = s.cf.tag :: item := by rw [words, h.tag]
    rw [hwords] at hput
    obtain ⟨rest, hrest⟩ := h.popped
    refine ⟨_, Function.update q w (q w ++ [(item, s.added.length)]), h3, ?_⟩
    -- what is read of the buffers but for their contents is as before
    have hring : ∀ w', ((Function.update s.cf.ring w
        (ringBufAdd (s.cf.ring w) (s.cf.tag :: item))) w').itemSz = (s.cf.ring w').itemSz ∧
        ((Function.update s.cf.ring w
          (ringBufAdd (s.cf.ring w) (s.cf.tag :: item))) w').capacity = (s.cf.ring w').capacity ∧
        ((Function.update s.cf.ring w
          (ringBufAdd (s.cf.ring w) (s.cf.tag :: item))) w').tail = (s.cf.ring w').tail := by
      intro w'
      by_cases hw : w' = w
      · subst hw
        rw [Function.update_self]
        exact ⟨rfl, rfl, rfl⟩
      · rw [Function.update_of_ne hw]
        exact ⟨rfl, rfl, rfl⟩
    have hpre : ∀ w', q w' <+: Function.update q w (q w ++ [(item, s.added.length)]) w' := by
      intro w'
      by_cases hw : w' = w
      · subst hw
        rw [Function.update_self]
        exact List.prefix_append ..
      · simp [Function.update_of_ne hw]
    refine ⟨h.fits, fun w' => (hring w').1.trans (h.itemSz w'),
      fun w' => (hring w').2.1.trans (h.capacity w'), fun w' => ?_, fun w' => ?_, ?_, ?_,
      h.currTag, ⟨rest ++ [item], ?_⟩, ?_, h.pc.mono (fun w' => (hring w').2.2) rfl rfl hpre
        (List.prefix_append ..)⟩
    · by_cases hw : w' = w
      · subst hw
        simpa [ConcurrentFifo.setRing] using hput
      · simpa [ConcurrentFifo.setRing, hw] using h.holds w'
    · exact (h.tail w').imp_left fun ht => by
        simpa only [ConcurrentFifo.setRing, hring] using ht
    · intro x hx
      rcases List.mem_append.mp hx with hx | hx
      · exact h.length x hx
      · rw [List.mem_singleton.mp hx, hn]
    · have := h.tag
      simp only [ConcurrentFifo.setRing, wadd, List.length_append, List.length_singleton]
      rw [this, Nat.mod_add_mod]
    · rw [← List.append_assoc]
      exact congrArg (· ++ [item]) hrest
    · have hle := h.taken_le
      rw [← List.length_zipIdx (l := s.added) (i := 0)] at hle
      change (Function.update q w _ .A ++ Function.update q w _ .B).Perm
        ((s.added ++ [item]).zipIdx.drop ((taken s).length + inHand s.pc))
      rw [List.zipIdx_append, Nat.zero_add, List.drop_append_of_le_length hle]
      refine .trans ?_ (h.pending.append_right _)
      cases w
      · simp only [Function.update_self, ne_eq, reduceCtorEq, not_false_eq_true,
          Function.update_of_ne, List.append_assoc]
        exact List.perm_append_comm.append_left (q .A)
      · simp
  · left
    have hback : wsub (wadd s.cf.tag 1) 1 = s.cf.tag := by
      have := h.tag_lt
      unfold wsub wadd wordMod at *
      omega
    rw [hback] at h2
    refine ⟨h2, fun w => (h1 w).imp_right fun hf => ?_⟩
    rw [← h.capacity w]
    exact ((h.holds w).isfull_iff (h.capacity_le w)).mp hf

end Inv

/-! ### A statement of a pop -/

/-- A list that is being copied is longer by one. -/
lemma prefix_snoc {α : Type*} {l w : List α} {a : α} (h : l <+: w) (ha : w[l.length]? = some a) :
    l ++ [a] <+: w := by
  obtain ⟨r, rfl⟩ := h
  rw [List.getElem?_append_right le_rfl, Nat.sub_self] at ha
  cases r with
  | nil => simp at ha
  | cons b r =>
    obtain rfl : b = a := by simpa using ha
    exact ⟨r, by simp⟩

lemma getElem?_getD {l : List ℕ} {i : ℕ} (h : i < l.length) : l[i]? = some (l.getD i 0) := by
  rw [List.getD_eq_getElem?_getD, List.getElem?_eq_getElem h]
  rfl

namespace Inv

variable {capacity : Which → ℕ} {n : ℕ} {cf cf' : ConcurrentFifo} {pc pc' : Pc}
  {added popped : List (List ℕ)} {q : Which → List Item}

/-- A statement that changes no buffer. -/
lemma goto (h : Inv capacity n ⟨cf, pc, added, popped⟩ q) (hring : cf'.ring = cf.ring)
    (htag : cf'.tag = cf.tag) (hcur : cf'.currTag = cf.currTag)
    (hr : returned pc' = returned pc) (hh : inHand pc' = inHand pc)
    (hw : ∀ w tagged, pc ≠ .wrap w tagged)
    (hat : At n cf' q added (popped ++ returned pc).length pc') :
    Inv capacity n ⟨cf', pc', added, popped⟩ q := by
  have ht : taken ⟨cf', pc', added, popped⟩ = popped ++ returned pc := by simp [taken, hr]
  refine ⟨h.fits, ?_, ?_, ?_, ?_, h.length, htag ▸ h.tag, ?_, ?_, ?_, ?_⟩
  · simpa only [hring] using h.itemSz
  · simpa only [hring] using h.capacity
  · simpa only [hring] using h.holds
  · intro w
    refine (h.tail w).elim (fun hlt => .inl (by simpa only [hring] using hlt)) ?_
    rintro ⟨tagged, ht⟩
    exact absurd ht (hw w tagged)
  · rw [ht, hcur]
    exact h.currTag
  · rw [ht]
    exact h.popped
  · rw [ht]
    simp only [hh]
    exact h.pending
  · rw [ht]
    exact hat

/-- Where a pop goes on that does not find the next item. -/
lemma goto_other (h : Inv capacity n ⟨cf, pc, added, popped⟩ q) {w : Which} {a b c : ℕ}
    (hr : returned pc = []) (hh : inHand pc = 0) (hw : ∀ w tagged, pc ≠ .wrap w tagged)
    (hat : a = (n + 1) * (cf.ring .A).tail ∧ b = (n + 1) * (cf.ring .B).tail ∧ c = cf.currTag) :
    Inv capacity n ⟨cf, other w a b c, added, popped⟩ q := by
  cases w with
  | A => exact h.goto rfl rfl rfl hr.symm hh.symm hw hat
  | B => exact h.goto rfl rfl rfl hr.symm hh.symm hw trivial

lemma tail_lt (h : Inv capacity n ⟨cf, pc, added, popped⟩ q)
    (hw : ∀ w tagged, pc ≠ .wrap w tagged) (w : Which) :
    (cf.ring w).tail < (cf.ring w).capacity :=
  (h.tail w).resolve_right fun ⟨tagged, ht⟩ => hw w tagged ht

/-- The tag of the next item is compared. -/
lemma test (h : Inv capacity n ⟨cf, pc, added, popped⟩ q) {w : Which} {a b c : ℕ}
    (hpc : pc = .test w a b c) :
    Inv capacity n ⟨(popStep cf pc).1, (popStep cf pc).2, added, popped⟩ q := by
  subst hpc
  have hw : ∀ w' tagged, Pc.test w a b c ≠ .wrap w' tagged := by simp
  obtain ⟨ha, hb, hc, hq⟩ := h.pc
  rw [popStep]
  dsimp only
  split_ifs with htag
  · obtain ⟨⟨x, k⟩, rest, hqw⟩ := List.exists_cons_of_ne_nil hq
    have hsel : select w a b = (cf.ring w).itemSz * (cf.ring w).tail := by
      rw [h.itemSz w]
      cases w
      · exact ha
      · exact hb
    have hfront := Holds.front (hqw ▸ h.holds w) (h.tail_lt hw w) (i := 0)
      (by rw [h.itemSz w]; omega)
    rw [Nat.add_zero, ← hsel, ← htag, hc] at hfront
    have hk : k = (taken ⟨cf, .test w a b c, added, popped⟩).length :=
      h.eq_next rfl (w := w) (e := (x, k)) (by simp [hqw]) hfront
    refine h.goto rfl rfl rfl rfl rfl hw ⟨x, ?_⟩
    rw [hqw, hk]
    rfl
  · exact h.goto_other rfl rfl hw ⟨ha, hb, hc⟩

/-- The item at the front of a buffer. -/
lemma front_pending (h : Inv capacity n ⟨cf, pc, added, popped⟩ q) {w : Which} {x : List ℕ}
    {k : ℕ} (hq : (q w).head? = some (x, k)) :
    (∃ rest, q w = (x, k) :: rest) ∧ added[k]? = some x ∧ (words (x, k)).length = n + 1 := by
  obtain ⟨rest, hqw⟩ := List.head?_eq_some_iff.mp hq
  have hmem : (x, k) ∈ q .A ++ q .B := by
    have : (x, k) ∈ q w := by simp [hqw]
    cases w
    · exact List.mem_append_left _ this
    · exact List.mem_append_right _ this
  have hx := (mem_pending.mp (h.pending.subset hmem)).2
  refine ⟨⟨rest, hqw⟩, hx, ?_⟩
  rw [words, List.length_cons, h.length x (List.mem_of_getElem? hx)]

/-- A word of the item is copied out of the buffer. -/
lemma copy (h : Inv capacity n ⟨cf, pc, added, popped⟩ q) {w : Which} {ptr : ℕ}
    {tagged : List ℕ} (hpc : pc = .copy w ptr tagged) :
    Inv capacity n ⟨(popStep cf pc).1, (popStep cf pc).2, added, popped⟩ q := by
  subst hpc
  have hw : ∀ w' t, Pc.copy w ptr tagged ≠ .wrap w' t := by simp
  obtain ⟨hl, hp, x, hq, hr⟩ := h.pc
  obtain ⟨⟨rest, hqw⟩, -, hlen⟩ := h.front_pending hq
  rw [popStep]
  split_ifs with hlt
  · rw [h.itemSz w] at hlt
    have hfront := Holds.front (hqw ▸ h.holds w) (h.tail_lt hw w) (i := tagged.length)
      (by rw [h.itemSz w]; exact hlt)
    rw [h.itemSz w, ← hp] at hfront
    refine h.goto rfl rfl rfl rfl rfl hw ⟨hl, hp, x, hq, ?_⟩
    rw [hfront]
    exact prefix_snoc hr (getElem?_getD (hlt.trans_eq hlen.symm))
  · rw [h.itemSz w] at hlt
    exact h.goto rfl rfl rfl rfl rfl hw ⟨hl, x, hq, hr.eq_of_length_le (by omega)⟩

/-- A statement that changes the buffer `w`. -/
lemma setRing (h : Inv capacity n ⟨cf, pc, added, popped⟩ q) {w : Which} {rb : RingBuf}
    {l : List Item} (hsz : rb.itemSz = (cf.ring w).itemSz)
    (hcap : rb.capacity = (cf.ring w).capacity) (hl : Holds rb l)
    (ht : rb.tail < rb.capacity ∨ ∃ tagged, pc' = .wrap w tagged)
    (hw : ∀ w' tagged, pc = .wrap w' tagged → w' = w) (hr : returned pc' = returned pc)
    (hp : (Function.update q w l .A ++ Function.update q w l .B).Perm
      (added.zipIdx.drop ((popped ++ returned pc).length + inHand pc')))
    (hat : At n (cf.setRing w rb) (Function.update q w l) added (popped ++ returned pc).length
      pc') :
    Inv capacity n ⟨cf.setRing w rb, pc', added, popped⟩ (Function.update q w l) := by
  have htaken : taken ⟨cf.setRing w rb, pc', added, popped⟩ = popped ++ returned pc := by
    simp [taken, hr]
  have hself : (cf.setRing w rb).ring w = rb := Function.update_self ..
  have hother : ∀ w', w' ≠ w → (cf.setRing w rb).ring w' = cf.ring w' := fun w' hne =>
    Function.update_of_ne hne ..
  refine ⟨h.fits, fun w' => ?_, fun w' => ?_, fun w' => ?_, fun w' => ?_, h.length, h.tag, ?_,
    ?_, ?_, ?_⟩
  · rcases eq_or_ne w' w with rfl | hne
    · exact (congrArg _ hself).trans (hsz.trans (h.itemSz w'))
    · exact (congrArg _ (hother w' hne)).trans (h.itemSz w')
  · rcases eq_or_ne w' w with rfl | hne
    · exact (congrArg _ hself).trans (hcap.trans (h.capacity w'))
    · exact (congrArg _ (hother w' hne)).trans (h.capacity w')
  · rcases eq_or_ne w' w with rfl | hne
    · simp only [hself, Function.update_self]
      exact hl
    · simp only [hother w' hne, Function.update_of_ne hne]
      exact h.holds w'
  · rcases eq_or_ne w' w with rfl | hne
    · simp only [Tail, hself]
      exact ht
    · simp only [Tail, hother w' hne]
      exact .inl ((h.tail w').resolve_right fun ⟨t, hpc⟩ => hne (hw w' t hpc))
  · rw [htaken]
    exact h.currTag
  · rw [htaken]
    exact h.popped
  · rw [htaken]
    exact hp
  · rw [htaken]
    exact hat

/-- The item is taken out of the buffer. -/
lemma incTail (h : Inv capacity n ⟨cf, pc, added, popped⟩ q) {w : Which} {tagged : List ℕ}
    (hpc : pc = .incTail w tagged) :
    ∃ q', Inv capacity n ⟨(popStep cf pc).1, (popStep cf pc).2, added, popped⟩ q' := by
  subst hpc
  have hw : ∀ w' t, Pc.incTail w tagged ≠ .wrap w' t := by simp
  obtain ⟨hl, x, hq, ht⟩ := h.pc
  obtain ⟨⟨rest, hqw⟩, hx, -⟩ := h.front_pending hq
  have hnil : taken ⟨cf, .incTail w tagged, added, popped⟩ = popped := List.append_nil _
  rw [hnil] at hq hqw hx ht
  have htake := Holds.take (hqw ▸ h.holds w) (h.capacity_le w) (h.tail_lt hw w)
  have hdrop := List.drop_eq_getElem?_toList_append (l := added.zipIdx) (i := popped.length)
  have hzip : added.zipIdx[popped.length]? = some (x, popped.length) := by
    rw [List.getElem?_zipIdx, hx, Nat.zero_add]
    rfl
  have hpend : (q .A ++ q .B).Perm ((x, popped.length) :: added.zipIdx.drop (popped.length + 1)) := by
    have := h.pending
    rw [hnil] at this
    rw [hzip] at hdrop
    exact this.trans (.of_eq hdrop)
  refine ⟨_, h.setRing (w := w) rfl rfl htake (.inr ⟨tagged, rfl⟩)
    (fun w' t heq => absurd heq (hw w' t)) rfl ?_ ?_⟩
  · -- the item is the first one of those that were pending
    rw [show returned (.incTail w tagged) = [] from rfl, List.append_nil]
    refine List.Perm.cons_inv (a := (x, popped.length)) (.trans ?_ hpend)
    cases w
    · simp [hqw]
    · simpa [hqw] using List.perm_middle.symm
  · rw [show returned (.incTail w tagged) = [] from rfl, List.append_nil]
    exact ⟨hl, x, hx, ht⟩

/-- The index of the tail goes back to zero. -/
lemma wrap (h : Inv capacity n ⟨cf, pc, added, popped⟩ q) {w : Which} {tagged : List ℕ}
    (hpc : pc = .wrap w tagged) :
    Inv capacity n ⟨(popStep cf pc).1, (popStep cf pc).2, added, popped⟩ q := by
  subst hpc
  obtain ⟨hl, x, hx, ht⟩ := h.pc
  have hwin := (h.holds w).window
  have hle := hwin.tail_le
  have hlt := hwin.lt
  have hset : Inv capacity n ⟨(popStep cf (.wrap w tagged)).1, .unlock w tagged, added, popped⟩
      (Function.update q w (q w)) := by
    refine h.setRing rfl rfl (h.holds w).wrap (.inl ?_) (fun w' t heq => by cases heq; rfl) rfl ?_
      ⟨x, hx, ht⟩
    · simp only at hle hlt ⊢
      split_ifs <;> omega
    · rw [Function.update_eq_self]
      exact h.pending
  rwa [Function.update_eq_self] at hset

/-- The item is copied to where the caller wants it. -/
lemma out (h : Inv capacity n ⟨cf, pc, added, popped⟩ q) {tagged item : List ℕ}
    (hpc : pc = .out tagged item) :
    Inv capacity n ⟨(popStep cf pc).1, (popStep cf pc).2, added, popped⟩ q := by
  subst hpc
  have hw : ∀ w' t, Pc.out tagged item ≠ .wrap w' t := by simp
  obtain ⟨x, hx, ht, hpre⟩ := h.pc
  have hlen : x.length = n := h.length x (List.mem_of_getElem? hx)
  rw [popStep, h.itemSz]
  split_ifs with hlt
  · refine h.goto rfl rfl rfl rfl rfl hw ⟨x, hx, ht, ?_⟩
    rw [ht, words, List.getD_cons_succ]
    exact prefix_snoc hpre (getElem?_getD (by omega))
  · refine h.goto rfl rfl rfl rfl rfl hw ?_
    rw [hpre.eq_of_length_le (by omega)]
    exact hx

/-- The item counts as taken. -/
lemma incTag (h : Inv capacity n ⟨cf, pc, added, popped⟩ q) {item : List ℕ}
    (hpc : pc = .incTag item) :
    Inv capacity n ⟨(popStep cf pc).1, (popStep cf pc).2, added, popped⟩ q := by
  subst hpc
  have hx : added[(popped ++ []).length]? = some item := h.pc
  have hpre : popped ++ [] <+: added := h.popped
  rw [List.append_nil] at hx hpre
  have hcur : cf.currTag = (popped ++ []).length % wordMod := h.currTag
  refine ⟨h.fits, h.itemSz, h.capacity, h.holds, fun w => ?_, h.length, h.tag, ?_, ?_, ?_,
    trivial⟩
  · exact .inl (h.tail_lt (by simp) w)
  · simp only [popStep, taken, returned, wadd, List.length_append, List.length_singleton]
    rw [hcur, List.append_nil, Nat.mod_add_mod]
  · exact prefix_snoc hpre hx
  · simpa [popStep, taken, returned, inHand] using h.pending

/-- A statement after which nothing is returned. -/
lemma statement (h : Inv capacity n ⟨cf, pc, added, popped⟩ q) (hr : returned pc = []) :
    ∃ q', Inv capacity n ⟨(popStep cf pc).1, (popStep cf pc).2, added, popped⟩ q' := by
  cases hpc : pc with
  | ret item =>
    rw [hpc] at hr
    exact absurd hr (by simp [returned])
  | idle =>
    subst hpc
    exact ⟨q, h.goto rfl rfl rfl rfl rfl (by simp) trivial⟩
  | ptrA =>
    subst hpc
    refine ⟨q, h.goto rfl rfl rfl rfl rfl (by simp) ?_⟩
    exact congrArg (· * _) (h.itemSz .A)
  | ptrB a =>
    subst hpc
    exact ⟨q, h.goto rfl rfl rfl rfl rfl (by simp) ⟨h.pc, congrArg (· * _) (h.itemSz .A)⟩⟩
  | tag a b =>
    subst hpc
    exact ⟨q, h.goto rfl rfl rfl rfl rfl (by simp) ⟨h.pc.1, h.pc.2, rfl⟩⟩
  | isempty w a b c =>
    subst hpc
    obtain ⟨ha, hb, hc⟩ := h.pc
    refine ⟨q, ?_⟩
    rw [popStep]
    dsimp only
    split_ifs with he
    · exact h.goto_other rfl rfl (by simp) ⟨ha, hb, hc⟩
    · refine h.goto rfl rfl rfl rfl rfl (by simp) ⟨ha, hb, hc, fun hq => he ?_⟩
      exact ((h.holds w).isempty_iff (h.tail_lt (by simp) w)).mpr hq
  | test w a b c => exact ⟨q, hpc ▸ h.test hpc⟩
  | lock w =>
    subst hpc
    refine ⟨q, h.goto rfl rfl rfl rfl rfl (by simp) ⟨?_, h.pc⟩⟩
    simp [popStep, ConcurrentFifo.setLck]
  | enter w =>
    subst hpc
    obtain ⟨hl, x, hx⟩ := h.pc
    exact ⟨q, h.goto rfl rfl rfl rfl rfl (by simp)
      ⟨hl, congrArg (· * _) (h.itemSz w), x, hx, List.nil_prefix⟩⟩
  | copy w ptr tagged => exact ⟨q, hpc ▸ h.copy hpc⟩
  | incTail w tagged => exact hpc ▸ h.incTail hpc
  | wrap w tagged => exact ⟨q, hpc ▸ h.wrap hpc⟩
  | unlock w tagged =>
    subst hpc
    obtain ⟨x, hx, ht⟩ := h.pc
    exact ⟨q, h.goto rfl rfl rfl rfl rfl (by simp) ⟨x, hx, ht, List.nil_prefix⟩⟩
  | out tagged item => exact ⟨q, hpc ▸ h.out hpc⟩
  | incTag item => exact ⟨q, hpc ▸ h.incTag hpc⟩

/-- **A statement of a pop** keeps the invariant. -/
lemma pop (h : Inv capacity n s q) : ∃ q', Inv capacity n ⟨(popStep s.cf s.pc).1,
    (popStep s.cf s.pc).2, s.added, s.popped ++ returned s.pc⟩ q' := by
  obtain ⟨cf, pc, added, popped⟩ := s
  by_cases hr : returned pc = []
  · simp only [hr, List.append_nil]
    exact h.statement hr
  · obtain ⟨item, rfl⟩ : ∃ item, pc = .ret item := by
      cases pc with
      | ret item => exact ⟨item, rfl⟩
      | _ => exact absurd rfl hr
    refine ⟨q, h.fits, h.itemSz, h.capacity, h.holds, fun w => .inl (h.tail_lt (by simp) w),
      h.length, h.tag, ?_, ?_, ?_, trivial⟩
    · simpa [taken, returned, popStep] using h.currTag
    · simpa [taken, returned, popStep] using h.popped
    · simpa [taken, returned, popStep, inHand] using h.pending

end Inv

/-! ### The runs -/

lemma inv_init {capacity : Which → ℕ} {n : ℕ} {s : St} (hs : (fifoSystem capacity n).init s) :
    ∃ q, Inv capacity n s q := by
  obtain ⟨hcap, hfits, buf, rfl⟩ := hs
  refine ⟨fun _ => [], hfits, fun _ => rfl, fun _ => rfl, fun w => ⟨?_, ?_⟩, fun w => ?_, ?_, rfl,
    rfl, List.prefix_rfl, .refl _, trivial⟩
  · exact Window.empty (Nat.lt_of_succ_lt (hcap w))
  · simp
  · exact .inl (Nat.lt_of_succ_lt (hcap w))
  · simp

lemma inv_step {capacity : Which → ℕ} {n : ℕ} {s s' : St} {q : Which → List Item}
    (h : Inv capacity n s q) (hs : Step n s s') : ∃ q', Inv capacity n s' q' := by
  cases hs with
  | pop => exact h.pop
  | add item hn =>
    rcases h.add hn with ⟨h1, -⟩ | ⟨cf', q', h1, h2⟩
    · rw [h1, if_neg Nat.one_ne_zero]
      exact ⟨q, h⟩
    · rw [h1, if_pos rfl]
      exact ⟨q', h2⟩

/-- **The invariant** holds in every state of every run. -/
theorem inv_reachable {capacity : Which → ℕ} {n : ℕ} {s : St}
    (hs : (fifoSystem capacity n).Reachable s) : ∃ q, Inv capacity n s q := by
  have hinv : (fifoSystem capacity n).Invariant fun s => ∃ q, Inv capacity n s q :=
    ⟨fun s hs => inv_init hs, fun s s' ⟨q, h⟩ hs => inv_step h hs⟩
  exact hinv.reachable hs

/-! ### The tags -/

/-- The number of items between the tail and the head. -/
def stored (rb : RingBuf) : ℕ := (rb.head + rb.capacity - rb.tail) % rb.capacity

/-- The tags in a buffer, from the tail to the head. -/
def storedTags (rb : RingBuf) : List ℕ :=
  (List.range (stored rb)).map fun j => rb.buf (rb.itemSz * ((rb.tail + j) % rb.capacity))

/-- The `k` tags from `tag` on. -/
def tagsFrom (tag k : ℕ) : List ℕ := (List.range k).map fun i => (tag + i) % wordMod

/-- The tag of the item that is being popped. -/
def tagInHand (s : St) : List ℕ := if inHand s.pc = 1 then [s.cf.currTag] else []

lemma Holds.stored_eq {rb : RingBuf} {q : List Item} (h : Holds rb q) :
    stored rb = q.length := by
  have h1 := h.window.lt
  have h2 := h.window.tail_le
  rw [stored, h.window.head_eq, slot_eq h2 h1, mod_of_lt_two (by split_ifs <;> omega)]
  split_ifs <;> omega

lemma Holds.storedTags_eq {rb : RingBuf} {q : List Item} (h : Holds rb q)
    (h0 : 0 < rb.itemSz) : storedTags rb = q.map fun e => e.2 % wordMod := by
  rw [storedTags, h.stored_eq]
  refine List.ext_getElem (by simp) fun j h1 h2 => ?_
  rw [List.length_map] at h2
  have := h.words j q[j] (List.getElem?_eq_getElem h2) 0 h0
  simpa [FifoInv.words, slot] using this

/-- The stored tags are those of the pending items. -/
lemma Inv.tags {capacity : Which → ℕ} {n : ℕ} {s : St} {q : Which → List Item}
    (h : Inv capacity n s q) :
    (tagInHand s ++ (storedTags (s.cf.ring .A) ++ storedTags (s.cf.ring .B))).Perm
      (tagsFrom s.cf.currTag (wsub s.cf.tag s.cf.currTag)) := by
  have hpos : ∀ w, 0 < (s.cf.ring w).itemSz := fun w => by rw [h.itemSz w]; omega
  obtain ⟨k, hk⟩ : ∃ k, k = (taken s).length := ⟨_, rfl⟩
  have hlen := h.length_pending
  have hle := h.taken_le
  have htag := h.tag
  have hcur := h.currTag
  rw [← hk] at hlen hle hcur
  have hin : inHand s.pc = 0 ∨ inHand s.pc = 1 := by
    cases s.pc <;> simp [inHand]
  have hsub : wsub s.cf.tag s.cf.currTag = s.added.length - k := by
    rw [htag, hcur]
    unfold addrSpace at hlen
    unfold wsub wordMod
    omega
  have hall : tagsFrom s.cf.currTag (s.added.length - k) =
      (List.range' k (s.added.length - k)).map (· % wordMod) := by
    rw [tagsFrom, List.range'_eq_map_range, List.map_map]
    refine List.map_congr_left fun i _ => ?_
    rw [hcur, Nat.mod_add_mod]
    rfl
  have hpend : (storedTags (s.cf.ring .A) ++ storedTags (s.cf.ring .B)).Perm
      ((List.range' (k + inHand s.pc) (s.added.length - (k + inHand s.pc))).map
        (· % wordMod)) := by
    rw [(h.holds .A).storedTags_eq (hpos _), (h.holds .B).storedTags_eq (hpos _),
      ← List.map_append]
    refine (h.pending.map _).trans (.of_eq ?_)
    have hsnd : (s.added.zipIdx.drop (k + inHand s.pc)).map Prod.snd =
        List.range' (k + inHand s.pc) (s.added.length - (k + inHand s.pc)) := by
      rw [List.map_drop, List.zipIdx_map_snd, List.drop_range']
      simp
    rw [← hk, ← hsnd, List.map_map]
    rfl
  rw [hsub, hall, tagInHand]
  rcases hin with h0 | h1
  · rw [if_neg (by omega)]
    rw [h0] at hpend
    exact hpend
  · rw [if_pos h1]
    rw [h1] at hpend
    obtain ⟨j, hj⟩ : ∃ j, s.added.length - k = j + 1 := ⟨s.added.length - k - 1, by omega⟩
    have hj' : s.added.length - (k + 1) = j := by omega
    rw [hj'] at hpend
    rw [hj, List.range'_succ, List.map_cons, hcur]
    exact hpend.cons _

/-- **The exception FIFO**, in every state of every run: the items that pops have returned are
the first ones of those added, in their order; the tags in the buffers are those from
`curr_tag` to `tag`, but for that of the item that is being popped; and an addition fails only
when each buffer is full or locked. -/
theorem fifo_correct {capacity : Which → ℕ} {n : ℕ} {s : St}
    (hs : (fifoSystem capacity n).Reachable s) :
    s.popped <+: s.added ∧
      (tagInHand s ++ (storedTags (s.cf.ring .A) ++ storedTags (s.cf.ring .B))).Perm
        (tagsFrom s.cf.currTag (wsub s.cf.tag s.cf.currTag)) ∧
      ∀ item, item.length = n → (concurrentFifoAdd s.cf item).2 = 1 →
        (concurrentFifoAdd s.cf item).1 = s.cf ∧
        ∀ w, s.cf.lck w ≠ 0 ∨ stored (s.cf.ring w) + 1 = capacity w := by
  obtain ⟨q, h⟩ := inv_reachable hs
  refine ⟨(List.prefix_append ..).trans h.popped, h.tags, fun item hn hfail => ?_⟩
  rcases h.add hn with ⟨h1, h2⟩ | ⟨cf', q', h1, -⟩
  · rw [h1]
    refine ⟨rfl, fun w => ?_⟩
    rw [(h.holds w).stored_eq]
    exact h2 w
  · rw [h1] at hfail
    exact absurd hfail (by simp)

/-- The state after this many statements of pops -/
def statements : ℕ → St → St
  | 0, s => s
  | k + 1, s => statements k
      ⟨(popStep s.cf s.pc).1, (popStep s.cf s.pc).2, s.added, s.popped ++ returned s.pc⟩

/-- The state after an interrupt -/
def interrupted (s : St) (item : List ℕ) : St :=
  ⟨(concurrentFifoAdd s.cf item).1, s.pc,
    if (concurrentFifoAdd s.cf item).2 = 0 then s.added ++ [item] else s.added, s.popped⟩

lemma reachable_statements {capacity : Which → ℕ} {n k : ℕ} {s : St}
    (hs : (fifoSystem capacity n).Reachable s) :
    (fifoSystem capacity n).Reachable (statements k s) := by
  induction k generalizing s with
  | zero => exact hs
  | succ k ih => exact ih (hs.step .pop)

/-- A FIFO of words, in two buffers of one item each, with one item in it -/
def oneAdded : St :=
  interrupted ⟨concurrentFifo (fun _ => 2) 1 fun _ _ => 0, .idle, [], []⟩ [7]

/-- A pop that has copied the tag out of `A` -/
def copying : St := statements 9 oneAdded

/-- While the pop copies and `A` is locked, an item is added to `B`; then the pop goes on to its
end. -/
theorem fifo_correct_interrupted :
    copying.cf.lck .A = 1 ∧ stored ((interrupted copying [8]).cf.ring .B) = 1 ∧
    (statements 9 (interrupted copying [8])).added = [[7], [8]] ∧
    (statements 9 (interrupted copying [8])).popped = [[7]] ∧
    (statements 9 (interrupted copying [8])).popped <+:
      (statements 9 (interrupted copying [8])).added := by
  have h₀ : (fifoSystem (fun _ => 2) 1).Reachable
      ⟨concurrentFifo (fun _ => 2) 1 fun _ _ => 0, .idle, [], []⟩ :=
    .init ⟨fun _ => Nat.one_lt_two, by decide, _, rfl⟩
  have h₁ : (fifoSystem (fun _ => 2) 1).Reachable copying :=
    reachable_statements (h₀.step (.add [7] rfl))
  exact ⟨by decide +kernel, by decide +kernel, by decide +kernel, by decide +kernel,
    (fifo_correct (reachable_statements (h₁.step (.add [8] rfl)))).1⟩

end LispMachine.FifoInv
