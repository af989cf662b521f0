import LispMachine.Containers
import LispMachine.AsmHeapInv

/-!
When the blocks that are handed out are as large as was asked for.

A size that does not fit in a word wraps to a small one, for which a block may well be found.
-/

namespace LispMachine.Sizes

open LispMachine.Memory LispMachine.Alloc LispMachine.HeapInv LispMachine.Heap
open LispMachine.HeapRuns LispMachine.HeapFrame LispMachine.Object LispMachine.Containers
open LispMachine.AsmHeapInv
open LispMachine.AsmHeap (arrayBsz memAddr usedSz itemSz)

variable {h sz : ℕ} {s s' : HSt} {n N a : ℕ}

/-- The words of the block that `alloc` looks for. -/
def asked (n : ℕ) : ℕ := max (wadd n umdsSz) minAllocSz

lemma asked_eq (hn : n + umdsSz < wordMod) : asked n = need n := by
  rw [asked, need, wadd_eq hn]

/-- Two requests for the same number of words are the same. -/
lemma alloc_congr {n' : ℕ} (hn : asked n = asked n') : s.alloc h n = s.alloc h n' := by
  have hasked : ∀ n, (if wadd n umdsSz < minAllocSz then minAllocSz else wadd n umdsSz) =
      asked n := by
    intro n
    unfold asked
    split_ifs <;> omega
  unfold HSt.alloc Alloc.alloc
  dsimp only
  rw [hasked, hasked, hn]

/-- **`alloc`** finds a block exactly if there is a free one of the words it looks for. -/
lemma alloc_asked (hs : Sound h sz s) (hn : n < wordMod) :
    (s.alloc h n = some (s, 0) ∧ ¬ Room h sz s (asked n)) ∨
    ∃ s' a, s.alloc h n = some (s', a) ∧ a ≠ 0 ∧ Room h sz s (asked n) ∧ Sound h sz s' ∧
      s'.live = a :: s.live ∧ Ext (fun _ _ => False) s s' ∧
      (n + umdsSz < wordMod → n ≤ getMemSz s'.mem a) := by
  have hsmall : ∀ n, n + umdsSz < wordMod →
      (s.alloc h n = some (s, 0) ∧ ¬ Room h sz s (asked n)) ∨
      ∃ s' a, s.alloc h n = some (s', a) ∧ a ≠ 0 ∧ Room h sz s (asked n) ∧ Sound h sz s' ∧
        s'.live = a :: s.live ∧ Ext (fun _ _ => False) s s' ∧ n ≤ getMemSz s'.mem a := by
    intro n hn
    have hgiven : ∀ s' a, s.alloc h n = some (s', a) → a ≠ 0 → Room h sz s (asked n) →
        ∃ s' a, s.alloc h n = some (s', a) ∧ a ≠ 0 ∧ Room h sz s (asked n) ∧ Sound h sz s' ∧
          s'.live = a :: s.live ∧ Ext (fun _ _ => False) s s' ∧ n ≤ getMemSz s'.mem a :=
      fun s' a h1 h0 hr => by
        obtain ⟨h2, h3, h4, h5⟩ := alloc_ext hs hn h1 h0
        exact ⟨s', a, h1, h0, hr, h2, h4, h3, h5⟩
    by_cases hr : Room h sz s (asked n)
    · right
      obtain ⟨lost, t, U, hi, e, he, hle⟩ := id hr
      rw [asked_eq hn] at hle
      rcases hi.alloc hn with ⟨-, h2⟩ | ⟨s', p, v, k, rest, t', h1, -⟩
      · exact absurd (h2 e he) (not_lt.mpr hle)
      · exact hgiven s' _ h1 (Nat.succ_ne_zero p) hr
    · obtain ⟨lost, t, U, hi⟩ := id hs
      rcases hi.alloc hn with ⟨h1, -⟩ | ⟨s', p, v, k, rest, t', h1, hg, -⟩
      · exact .inl ⟨h1, hr⟩
      · refine absurd ⟨lost, t, U, hi, (p, v), hg.found.symm.subset List.mem_cons_self, ?_⟩ hr
        rw [asked_eq hn]
        exact hg.large
  by_cases hfit : n + umdsSz < wordMod
  · refine (hsmall n hfit).imp_right ?_
    rintro ⟨s', a, h1, h2, h3, h4, h5, h6, h7⟩
    exact ⟨s', a, h1, h2, h3, h4, h5, h6, fun _ => h7⟩
  · obtain rfl : n = wordMod - 1 := by unfold umdsSz at hfit; omega
    have hasked : asked (wordMod - 1) = asked 0 := by decide
    rw [alloc_congr hasked, hasked]
    refine (hsmall 0 (by decide)).imp_right ?_
    rintro ⟨s', a, h1, h2, h3, h4, h5, h6, -⟩
    exact ⟨s', a, h1, h2, h3, h4, h5, h6, fun hf => absurd hf hfit⟩

lemma alloc_ne_one {o : ℕ} (hs : Sound h sz s) (hn : n < wordMod)
    (hr : s.alloc h n = some (s', o + 1)) : o ≠ 0 := by
  rcases alloc_asked hs hn with ⟨h1, -⟩ | ⟨s₁, a, h1, -, -, h2, h3, -, -⟩
  · rw [h1] at hr
    exact absurd (Prod.mk.inj (Option.some.inj hr)).2 (by omega)
  · obtain ⟨rfl, rfl⟩ := Prod.mk.inj (Option.some.inj (h1.symm.trans hr))
    have := (h2.bounds (a := o + 1) (by simp [h3])).1
    omega

/-- A request for `N` words, as a word, gets `N` words unless it wraps and is granted. -/
lemma alloc_size_iff (hs : Sound h sz s) (hN : n = N % wordMod) :
    (∀ s' a, s.alloc h n = some (s', a) → a ≠ 0 → N ≤ getMemSz s'.mem a) ↔
      N + umdsSz < wordMod ∨ ¬ Room h sz s (asked n) := by
  have hpos : 0 < wordMod := by decide
  have hn : n < wordMod := hN ▸ Nat.mod_lt _ hpos
  have hspace : addrSpace < wordMod := by decide
  rcases alloc_asked hs hn with ⟨h1, h2⟩ | ⟨s', a, h1, h0, h3, h4, h5, -, h6⟩
  · refine iff_of_true (fun s' a hr h0 => ?_) (.inr h2)
    rw [h1] at hr
    exact absurd (Prod.mk.inj (Option.some.inj hr)).2.symm h0
  · constructor
    · intro hall
      left
      have hle := hall s' a h1 h0
      have := h4.bounds (a := a) (by simp [h5])
      unfold umdsSz
      omega
    · rintro (hfit | hr) s'' a' hr' -
      · obtain ⟨rfl, rfl⟩ := Prod.mk.inj (Option.some.inj (h1.symm.trans hr'))
        have hnN : n = N := hN.trans (Nat.mod_eq_of_lt (by omega))
        exact hnN ▸ h6 (hnN ▸ hfit)
      · exact absurd h3 hr

/-! ### Objects -/

/-- The header of a block is in none of the blocks. -/
lemma header_ne {b i : ℕ} (hs : Sound h sz s) (ha : a ∈ s.live) (hb : b ∈ s.live)
    (hi : i < getMemSz s.mem b) : a - 1 ≠ b + i := by
  have h1 := hs.bounds ha
  have h2 := hs.bounds hb
  by_cases hne : b = a
  · omega
  · obtain ⟨lost, t, U, hinv⟩ := hs
    have h3 := disjoint_live hinv ha hb hne
    unfold BlocksDisjoint umdsSz at h3
    omega

lemma copyContents_out {obj src n x : ℕ} (hx : x < contents obj 0) :
    (copyContents obj src n s).mem x = s.mem x := by
  induction n with
  | zero => rfl
  | succ n ih =>
    rw [copyContents]
    refine (set_ne _ _ ?_).trans ih
    unfold contents at *
    omega

lemma getMemSz_congr {m m' : Mem} {o : ℕ} (ho : o + 1 < addrSpace) (hm : m' o = m o) :
    getMemSz m' (o + 1) = getMemSz m (o + 1) := by
  have h1 : psub (o + 1) umdsSz = o := by
    rw [psub_eq (by simp [umdsSz]) ho]
    rfl
  rw [getMemSz, getMemSz, h1, hm]

/-- The block of a new object is the one that was handed out. -/
lemma object_memSz {ty size src nw o : ℕ} (hs : Sound h sz s) (hty : ty = 0 ∨ ty + 1 ∈ s.live)
    (hr : object h s ty size src nw = some (s', o)) (ho : o ≠ 0) :
    ∃ s₁, s.alloc h (wsub (wadd size objSz) 1) = some (s₁, o + 1) ∧
      getMemSz s'.mem (o + 1) = getMemSz s₁.mem (o + 1) := by
  have hw : wsub (wadd size objSz) 1 < wordMod := Nat.mod_lt _ (by decide)
  rw [object] at hr
  by_cases h1 : size < nw
  · rw [if_pos h1] at hr
    exact absurd (Prod.mk.inj (Option.some.inj hr)).2.symm ho
  rw [if_neg h1] at hr
  obtain ⟨⟨s₁, mem⟩, h2, h3⟩ := Option.map_eq_some_iff.mp hr
  dsimp only at h3
  by_cases h4 : mem = 0
  · rw [if_pos h4] at h3
    exact absurd (Prod.mk.inj h3).2.symm ho
  rw [if_neg h4] at h3
  obtain ⟨h5, h6⟩ := Prod.mk.inj h3
  rcases alloc_asked hs hw with ⟨h7, -⟩ | ⟨s₂, a, h7, h8, -, hs₁, hlive, -, -⟩
  · exact absurd (Prod.mk.inj (Option.some.inj (h7.symm.trans h2))).2.symm h4
  obtain ⟨rfl, rfl⟩ := Prod.mk.inj (Option.some.inj (h7.symm.trans h2))
  obtain rfl : a = o + 1 := by omega
  have hmem : o + 1 ∈ s₂.live := by simp [hlive]
  have hbounds := hs₁.bounds hmem
  refine ⟨s₂, h2, getMemSz_congr (by omega) ?_⟩
  -- none of the writes is to the header of the block
  have hcopy : ∀ s₃ : HSt, (if src ≠ 0 then copyContents o src nw s₃ else s₃).mem o = s₃.mem o := by
    intro s₃
    split_ifs
    · exact copyContents_out (by unfold contents; omega)
    · rfl
  have hinc : ∀ s₃ : HSt, (if ty ≠ 0 then incRefcount s₃ ty 1 else s₃).mem o = s₃.mem o := by
    intro s₃
    split_ifs with h9
    · refine set_ne _ _ ?_
      have hty' : ty + 1 ∈ s₂.live := by simp [hlive, hty.resolve_left h9]
      have hbt := hs₁.bounds hty'
      exact header_ne hs₁ hmem hty' (i := 0) (by omega)
    · rfl
  rw [Nat.add_sub_cancel] at h5
  rw [← h5, hcopy]
  refine (set_ne _ _ (by unfold Object.size; omega)).trans ((hinc _).trans ?_)
  refine (setPtr_ne _ _ (by unfold Object.type; omega)).trans (set_ne _ _ ?_)
  unfold refcount
  omega

/-- An object gets the words of its contents unless their number wraps and a block is found. -/
lemma object_size_iff {ty size src nw : ℕ} (hs : Sound h sz s) (hty : ty = 0 ∨ ty + 1 ∈ s.live) :
    (∀ s' o, object h s ty size src nw = some (s', o) → o ≠ 0 →
      size + (objSz - 1) ≤ getMemSz s'.mem (o + 1)) ↔
      size + objSz < wordMod ∨ size < nw ∨
        ¬ Room h sz s (asked (wsub (wadd size objSz) 1)) := by
  have hwrap : wsub (wadd size objSz) 1 = (size + (objSz - 1)) % wordMod := by
    unfold wsub wadd objSz wordMod
    omega
  have hiff := alloc_size_iff hs hwrap
  have hu : size + (objSz - 1) + umdsSz = size + objSz := rfl
  rw [hu] at hiff
  by_cases hnw : size < nw
  · refine iff_of_true (fun s' o hr ho => ?_) (.inr (.inl hnw))
    rw [object, if_pos hnw] at hr
    exact absurd (Prod.mk.inj (Option.some.inj hr)).2.symm ho
  · constructor
    · intro hall
      refine (hiff.mp fun s₁ a h1 h0 => ?_).imp_right .inr
      obtain ⟨o, rfl⟩ : ∃ o, a = o + 1 := ⟨a - 1, by omega⟩
      have ho : o ≠ 0 := alloc_ne_one hs (hwrap ▸ Nat.mod_lt _ (by decide)) h1
      obtain ⟨s', h2⟩ : ∃ s', object h s ty size src nw = some (s', o) := by
        rw [object, if_neg hnw, h1, Option.map_some]
        exact ⟨_, rfl⟩
      obtain ⟨s₂, h3, h4⟩ := object_memSz hs hty h2 ho
      obtain ⟨rfl, -⟩ := Prod.mk.inj (Option.some.inj (h3.symm.trans h1))
      rw [← h4]
      exact hall s' o h2 ho
    · intro hcond s' o hr ho
      obtain ⟨s₁, h1, h2⟩ := object_memSz hs hty hr ho
      rw [h2]
      refine hiff.mpr ?_ s₁ _ h1 (Nat.succ_ne_zero o)
      rcases hcond with h3 | h3 | h3
      · exact .inl h3
      · exact absurd h3 hnw
      · exact .inr h3

/-! ### Arrays and ring buffers -/

/-- A new array has its items in the block that was handed out. -/
lemma array_spec (size item : ℕ) (hs : Sound h sz s) :
    (array h s size item = some (s, 0) ∧ ¬ Room h sz s (asked (wadd (wmul size item) arrayBsz))) ∨
    ∃ s₁ s' b, array h s size item = some (s', b + 2) ∧
      s.alloc h (wadd (wmul size item) arrayBsz) = some (s₁, b) ∧ b ≠ 0 ∧
      Room h sz s (asked (wadd (wmul size item) arrayBsz)) ∧ s'.live = b :: s.live ∧
      getMemSz s'.mem b = getMemSz s₁.mem b ∧ Sound h sz s' ∧ Ext (fun _ _ => False) s s' ∧
      ArrayAt s' b item [] := by
  have hn : wadd (wmul size item) arrayBsz < wordMod := Nat.mod_lt _ (by decide)
  rw [array]
  rcases alloc_asked hs hn with ⟨h1, h2⟩ | ⟨s₁, b, h1, h0, h2, h3, h4, h5, -⟩
  · exact .inl ⟨by rw [h1]; rfl, h2⟩
  · have hb : b ∈ s₁.live := by simp [h4]
    have hroom := (h3.bounds hb).2.2.1
    have hfresh : b ∉ s.live := by
      have := h3.nodup
      rw [h4] at this
      exact (List.nodup_cons.mp this).1
    have hw : Wrote h sz (fun x _ => x = b) s₁ ((s₁.set b 0).set (b + 1) item) :=
      ((Wrote.refl h3).set (i := 0) 0 hb (by omega) rfl).set (i := 1) item hb (by omega) rfl
    refine .inr ⟨s₁, (s₁.set b 0).set (b + 1) item, b, ?_, h1, h0, h2, hw.live.trans h4,
      hw.memSz b hb, hw.sound, fun x hx i hi _ => ?_, hw.live.symm ▸ hb, ?_, ?_, ?_, rfl⟩
    · rw [h1, Option.map_some]
      dsimp only
      rw [if_neg h0]
      rfl
    · refine (h5.trans hw.ext) x hx i hi ?_
      rintro (hf | rfl)
      · exact hf
      · exact hfresh hx
    · exact (set_ne _ _ (by omega)).trans (set_self ..)
    · exact set_self ..
    · rw [List.length_nil, hw.memSz b hb]
      omega

/-- The words of the items of an array fit in its block. -/
def Fits (s : HSt) (arr size item : ℕ) : Prop :=
  size * item + arrayBsz ≤ getMemSz s.mem (memAddr arr)

lemma fits_add {b size item : ℕ} :
    Fits s (b + 2) size item ↔ size * item + arrayBsz ≤ getMemSz s.mem b := Iff.rfl

lemma array_size_iff {size item : ℕ} (hs : Sound h sz s) :
    (∀ s' arr, array h s size item = some (s', arr) → arr ≠ 0 → Fits s' arr size item) ↔
      size * item + arrayBsz + umdsSz < wordMod ∨
        ¬ Room h sz s (asked (wadd (wmul size item) arrayBsz)) := by
  have hwrap : wadd (wmul size item) arrayBsz = (size * item + arrayBsz) % wordMod := by
    unfold wadd wmul
    rw [Nat.mod_add_mod]
  refine Iff.trans ?_ (alloc_size_iff hs hwrap)
  rcases array_spec size item hs with
    ⟨h1, h2⟩ | ⟨s₁, s', b, h1, h2, h0, h3, -, h4, -⟩
  · refine iff_of_true (fun s' arr hr h0 => ?_) ((alloc_size_iff hs hwrap).mpr (.inr h2))
    exact absurd (Prod.mk.inj (Option.some.inj (h1.symm.trans hr))).2.symm h0
  · constructor
    · intro hall s₂ a hr _
      obtain ⟨rfl, rfl⟩ := Prod.mk.inj (Option.some.inj (h2.symm.trans hr))
      have hfits := hall s' (b + 2) h1 (by omega)
      rwa [fits_add, h4] at hfits
    · intro hall s₂ arr hr _
      obtain ⟨rfl, rfl⟩ := Prod.mk.inj (Option.some.inj (h1.symm.trans hr))
      rw [fits_add, h4]
      exact hall s₁ b h2 h0

/-- The array of a ring buffer is asked for once the buffer itself is there. -/
def ArrayRefused (h sz : ℕ) (s : HSt) (size item : ℕ) : Prop :=
  ∀ s₁ rb, s.alloc h ringBufSz = some (s₁, rb) → rb = 0 ∨
    ¬ Room h sz s₁ (asked (wadd (wmul size item) arrayBsz))

lemma ringBuf_size_iff {size item : ℕ} (hs : Sound h sz s) :
    (∀ s' rb, ringBuf h s size item = some (s', rb) → rb ≠ 0 →
      Fits s' (s'.mem.ptr (buf rb)) size item) ↔
      size * item + arrayBsz + umdsSz < wordMod ∨ size ≤ 1 ∨ ArrayRefused h sz s size item := by
  have h3 : ringBufSz < wordMod := by decide
  by_cases hsize : size ≤ 1
  · refine iff_of_true (fun s' rb hr h0 => ?_) (.inr (.inl hsize))
    rw [ringBuf, if_pos hsize] at hr
    exact absurd (Prod.mk.inj (Option.some.inj hr)).2.symm h0
  rcases alloc_asked hs h3 with ⟨h1, -⟩ | ⟨s₁, rb, h1, h0, -, hs₁, hlive, -, hroom⟩
  · refine iff_of_true (fun s' rb hr h0 => ?_) (.inr (.inr fun s₁ rb hr => ?_))
    · rw [ringBuf, if_neg hsize, h1] at hr
      exact absurd (Prod.mk.inj (Option.some.inj hr)).2.symm h0
    · exact .inl (Prod.mk.inj (Option.some.inj (h1.symm.trans hr))).2.symm
  · have hrefused : ArrayRefused h sz s size item ↔
        ¬ Room h sz s₁ (asked (wadd (wmul size item) arrayBsz)) := by
      constructor
      · exact fun hr => (hr s₁ rb h1).resolve_left h0
      · intro hr s₂ rb' h2
        obtain ⟨rfl, rfl⟩ := Prod.mk.inj (Option.some.inj (h1.symm.trans h2))
        exact .inr hr
    rw [hrefused, or_iff_right hsize, ← array_size_iff hs₁]
    have hrb : rb ∈ s₁.live := by simp [hlive]
    rcases array_spec size item hs₁ with
      ⟨h2, -⟩ | ⟨s₂, s₃, b, h2, -, -, -, hlive₃, -, hs₃, -⟩
    · refine iff_of_true (fun s' rb' hr h0' => ?_) fun s' arr hr h0' => ?_
      · rw [ringBuf, if_neg hsize, h1, Option.bind_some] at hr
        dsimp only at hr
        rw [if_neg h0, h2, Option.bind_some, if_pos rfl] at hr
        obtain ⟨s₄, -, h4⟩ := Option.map_eq_some_iff.mp hr
        exact absurd (Prod.mk.inj h4).2.symm h0'
      · exact absurd (Prod.mk.inj (Option.some.inj (h2.symm.trans hr))).2.symm h0'
    · have hrb₃ : rb ∈ s₃.live := by simp [hlive₃, hrb]
      have hb₃ : b ∈ s₃.live := by simp [hlive₃]
      have hmin := (hs₃.bounds hrb₃).2.2.1
      have hw : Wrote h sz (fun x _ => x = rb) s₃
          (((s₃.setPtr (buf rb) (b + 2)).set (head rb) 0).set (tail rb) 0) :=
        (((Wrote.refl hs₃).set (i := 0) (8 * (b + 2)) hrb₃ (by omega) rfl).set (i := 1) 0 hrb₃
          (by omega) rfl).set (i := 2) 0 hrb₃ (by omega) rfl
      have hcode : ringBuf h s size item =
          some (((s₃.setPtr (buf rb) (b + 2)).set (head rb) 0).set (tail rb) 0, rb) := by
        rw [ringBuf, if_neg hsize, h1, Option.bind_some]
        dsimp only
        rw [if_neg h0, h2, Option.bind_some, if_neg (by omega)]
      have hptr : (((s₃.setPtr (buf rb) (b + 2)).set (head rb) 0).set (tail rb) 0).mem.ptr
          (buf rb) = b + 2 := by
        refine ptr_of_eq ?_
        refine (set_ne _ _ (by unfold buf tail; omega)).trans ?_
        exact (set_ne _ _ (by unfold buf head; omega)).trans (setPtr_self ..)
      have hsame := hw.memSz b hb₃
      generalize ((s₃.setPtr (buf rb) (b + 2)).set (head rb) 0).set (tail rb) 0 = s₄ at *
      constructor
      · intro hall s' arr hr _
        obtain ⟨rfl, rfl⟩ := Prod.mk.inj (Option.some.inj (h2.symm.trans hr))
        have hfits := hall s₄ rb hcode h0
        rwa [hptr, fits_add, hsame] at hfits
      · intro hall s' rb' hr _
        obtain ⟨rfl, rfl⟩ := Prod.mk.inj (Option.some.inj (hcode.symm.trans hr))
        rw [hptr, fits_add, hsame]
        exact hall s₃ (b + 2) h2 (by omega)

/-- **The sizes** of what is handed out are those asked for, in integers, exactly if the words of
the request can be counted in a word or the request is refused. -/
theorem sizes_iff (hs : Sound h sz s) (n ty size src nw item : ℕ) (hn : n < wordMod)
    (hty : ty = 0 ∨ ty + 1 ∈ s.live) :
    ((∀ s' a, s.alloc h n = some (s', a) → a ≠ 0 → n ≤ getMemSz s'.mem a) ↔
      n + umdsSz < wordMod ∨ ¬ Room h sz s (asked n)) ∧
    ((∀ s' o, object h s ty size src nw = some (s', o) → o ≠ 0 →
      size + (objSz - 1) ≤ getMemSz s'.mem (o + 1)) ↔
      size + objSz < wordMod ∨ size < nw ∨
        ¬ Room h sz s (asked (wsub (wadd size objSz) 1))) ∧
    ((∀ s' arr, array h s size item = some (s', arr) → arr ≠ 0 → Fits s' arr size item) ↔
      size * item + arrayBsz + umdsSz < wordMod ∨
        ¬ Room h sz s (asked (wadd (wmul size item) arrayBsz))) ∧
    ((∀ s' rb, ringBuf h s size item = some (s', rb) → rb ≠ 0 →
      Fits s' (s'.mem.ptr (buf rb)) size item) ↔
      size * item + arrayBsz + umdsSz < wordMod ∨ size ≤ 1 ∨ ArrayRefused h sz s size item) :=
  ⟨alloc_size_iff hs (Nat.mod_eq_of_lt hn).symm, object_size_iff hs hty, array_size_iff hs,
    ringBuf_size_iff hs⟩

/-- A heap of a megabyte at the address `8`. -/
theorem sizes_low : ∃ s, Sound 1 (2 ^ 17) s ∧
    ∀ s' arr, array 1 s 10 3 = some (s', arr) → arr ≠ 0 → Fits s' arr 10 3 := by
  obtain ⟨s, c, hs, -⟩ := @exists_init 1 (2 ^ 17) (by decide) (by decide) (by decide)
    fun _ => True
  obtain ⟨lost, t, U, hi, -⟩ := inv_reachable (.init hs)
  have hsound : Sound 1 (2 ^ 17) s := ⟨lost, t, U, hi⟩
  exact ⟨s, hsound, (sizes_iff hsound 0 0 10 0 0 3 (by decide) (.inl rfl)).2.2.1.mpr
    (.inl (by decide))⟩

/-- The largest request is granted in that heap, with a block of four words. -/
theorem sizes_wrap : ¬ ∀ (h sz : ℕ) (s : HSt) (n : ℕ), Sound h sz s → n < wordMod →
    ∀ s' a, s.alloc h n = some (s', a) → a ≠ 0 → n ≤ getMemSz s'.mem a := by
  intro hall
  obtain ⟨s, c, hs, -, t, U, hi, hr⟩ := @exists_init 1 (2 ^ 17) (by decide) (by decide)
    (by decide) fun _ => True
  have hsound : Sound 1 (2 ^ 17) s := ⟨[], t, U, hi⟩
  have hasked : asked (wordMod - 1) = 4 := by decide
  have hlt : wordMod - 1 < wordMod := by decide
  rcases (alloc_size_iff hsound (Nat.mod_eq_of_lt hlt).symm).mp
    (hall 1 (2 ^ 17) s _ hsound hlt) with h1 | h1
  · exact absurd h1 (by decide)
  · obtain ⟨x, v, ht, hv⟩ := hr.resolve_left (by decide)
    refine h1 ⟨[], t, U, hi, (x, v), by simp [ht], ?_⟩
    rw [hasked]
    exact (by decide : 4 ≤ 2 ^ 17 - 145).trans hv

end LispMachine.Sizes
