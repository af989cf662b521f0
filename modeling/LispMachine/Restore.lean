import LispMachine.Construct
import LispMachine.NumObjAdd
import LispMachine.SetRefused
import LispMachine.Sizes

/-!
Constructors that fail.

A constructor gives back what it has allocated when one of its allocations is refused. The heap is
as before then if the blocks are given back, each of them and in fact: the counters of the header
are those of the list of used blocks, whether or not an address of the block is held by anyone.
-/

namespace LispMachine.Restore

open LispMachine.Memory LispMachine.AvlCode LispMachine.AvlRepr LispMachine.Alloc
open LispMachine.HeapInv LispMachine.Heap LispMachine.HeapFrame LispMachine.HeapRuns
open LispMachine.Owned
open LispMachine.NumObj LispMachine.Object LispMachine.Containers LispMachine.Sizes
open LispMachine.Construct LispMachine.SetsInv LispMachine.SetRefused LispMachine.Lib.BalTree
open LispMachine.Lib.BalTree.BTree LispMachine.Lib.Segments
open LispMachine.Sets (avlInsert)
open LispMachine.NumObjAdd (objCmp_numbers wsub_wadd)
open LispMachine.AsmHeap (arrayBsz)
open LispMachine.HeapInit (Fresh)

variable {h sz a b c i k l n p q v : ℕ} {s₀ s s' s'' : HSt} {t : T} {U V : List Entry}

/-! ### The used blocks -/

/-- `alloc`, also of a number of words that wraps. -/
lemma alloc_owns (ho : Owns h sz s₀ s U) (hn : n < wordMod) :
    (s.alloc h n = some (s, 0) ∧ ¬ Room h sz s (asked n)) ∨
    ∃ s' p k, s.alloc h n = some (s', p + 1) ∧ p ≠ 0 ∧ Room h sz s (asked n) ∧
      Owns h sz s₀ s' ((p, k) :: U) ∧ s'.live = (p + 1) :: s.live ∧
      Ext (fun _ _ => False) s s' ∧ p + 1 ∉ s.live ∧
      (n + umdsSz < wordMod → n ≤ getMemSz s'.mem (p + 1)) := by
  rcases alloc_asked ho.sound hn with h1 | ⟨s', a, h1, h2, h3, h4, h5, h6, hsize⟩
  · exact .inl h1
  have hb := h4.bounds (a := a) (by simp [h5])
  have hfresh : a ∉ s.live := by
    have := h4.nodup
    rw [h5] at this
    exact (List.nodup_cons.mp this).1
  -- the request is one that does not wrap
  obtain ⟨j, hj, hasked⟩ : ∃ j, j + umdsSz < wordMod ∧ asked n = asked j := by
    by_cases hfit : n + umdsSz < wordMod
    · exact ⟨n, hfit, rfl⟩
    · obtain rfl : n = wordMod - 1 := by unfold umdsSz at hfit; omega
      exact ⟨0, by decide, by decide⟩
  rw [alloc_congr hasked] at h1
  obtain ⟨p, k, rfl, ho'⟩ := ho.alloc hj h1 h2
  exact .inr ⟨s', p, k, by rw [alloc_congr hasked, h1], by omega, h3, ho', h5, h6, hfresh, hsize⟩

/-- A constructor that returns null has restored the heap. -/
def AllOrNothing (h : ℕ) (s : HSt) (r : Option (HSt × ℕ)) : Prop :=
  ∀ s', r = some (s', 0) → Restored h s s'

/-! ### The collector's set -/

/-- The data of the collector's set are addresses, and their own keys. -/
def addrKey (_ : Mem) (d : ℕ) : List ℕ := [d]

lemma avlBasicCmp_compares : Compares avlBasicCmp addrKey := by
  intro m n₁ n₂
  have hlt : ∀ x y : ℕ, SetsCmp.rank [x] < SetsCmp.rank [y] ↔ x < y := fun x y => by
    rw [SetsCmp.rank, SetsCmp.rank, Prod.Lex.toLex_lt_toLex, List.cons_lt_cons_iff]
    simp
  rw [avlBasicCmp, addrKey, addrKey]
  rcases lt_trichotomy (data m n₁) (data m n₂) with h1 | h1 | h1
  · rw [if_pos h1, SetsCmp.threeWay_of_lt ((hlt _ _).mpr h1)]
  · rw [if_neg (by omega), if_pos h1, h1]
    exact (SetsCmp.threeWay_eq_zero.mpr rfl).symm
  · rw [if_neg (by omega), if_neg (by omega), SetsCmp.threeWay_of_gt ((hlt _ _).mpr h1)]

/-- The set of the collector is the tree `t`, of addresses of allocated blocks. -/
structure GcSet (h sz : ℕ) (s : HSt) (t : T) : Prop where
  set : OrdSet addrKey h sz (s.mem.ptr (gcSet h)) s t
  live : ∀ e ∈ t.toList, e.2 / 8 ∈ s.live

/-- The address of a new block is inserted if there is a node for it. -/
lemma gcInsert {g : ℕ} (hg : OrdSet addrKey h sz g s t) (ha : ∀ e ∈ t.toList, e.2 / 8 ≠ a) :
    (NoRoom h sz s 4 ∧ avlInsert avlBasicCmp h s (contents g 0) (8 * a) = some (s, 1)) ∨
      ¬ NoRoom h sz s 4 ∧
        ∃ s', avlInsert avlBasicCmp h s (contents g 0) (8 * a) = some (s', 0) := by
  rcases alloc_cases hg.tree.sound four_lt with ⟨hf, hr⟩ | ⟨hf, s₂, nd, hr, h0⟩
  · refine .inl ⟨hf, ?_⟩
    rw [avlInsert, hr, Option.bind_some]
    exact if_pos rfl
  · refine .inr ⟨hf, ?_⟩
    rcases avlInsert_spec (v := 8 * a) avlBasicCmp_compares hg hr h0 with
      ⟨⟨e, he, heq⟩, -⟩ | ⟨-, s', t', h1, -⟩
    · have h2 : e.2 = 8 * a := (List.cons.inj heq).1
      exact absurd (by omega) (ha e he)
    · exact ⟨s', h1⟩

/-- The pointer to the collector's set is not the allocator's to write. -/
lemma gcSet_owns (ho : Owns h sz s₀ s U) : s.mem.ptr (gcSet h) = s₀.mem.ptr (Alloc.gcSet h) := by
  refine congrArg (· / 8) (ho.header _ (by unfold Alloc.gcSet hdsSz; omega) ?_)
  simp only [headerCells, Alloc.gcSet, fmdsPtr, trueNumAlloced, wordsUsed, List.mem_cons,
    List.not_mem_nil, or_false]
  omega

/-- The block of `gc_alloc` can be given back if there is no node for its address. -/
def GcKeeps (h sz : ℕ) (s : HSt) (n : ℕ) : Prop :=
  ∀ s₁ a, s.alloc h n = some (s₁, a) → a = 0 ∨ a < freeBound h sz ∨ ¬ NoRoom h sz s₁ 4

/-- **`gc_alloc`**. -/
lemma gcAlloc_iff (hg : GcSet h sz s t) (hn : n < wordMod) :
    AllOrNothing h s (gcAlloc h s n) ↔ GcKeeps h sz s n := by
  obtain ⟨U, ho⟩ := Owns.of_sound hg.set.tree.sound
  rw [gcAlloc]
  rcases alloc_owns ho hn with ⟨hr, -⟩ | ⟨s₁, p, k, hr, hp0, -, ho₁, hlive, hx, hfresh, -⟩
  · refine iff_of_true (fun s' h1 => ?_) fun s₁ a h1 => ?_
    · rw [hr, Option.bind_some] at h1
      obtain ⟨rfl, -⟩ := Prod.mk.inj (Option.some.inj ((if_pos rfl).symm.trans h1))
      exact .refl h s
    · exact .inl (Prod.mk.inj (Option.some.inj (hr.symm.trans h1))).2.symm
  · have hkeeps : GcKeeps h sz s n ↔ p + 1 < freeBound h sz ∨ ¬ NoRoom h sz s₁ 4 := by
      constructor
      · exact fun hk => (hk s₁ _ hr).resolve_left (Nat.succ_ne_zero p)
      · intro hk s₂ a h1
        obtain ⟨rfl, rfl⟩ := Prod.mk.inj (Option.some.inj (hr.symm.trans h1))
        exact .inr hk
    have hset := hg.set.ext ho₁.sound hx fun _ _ => False.elim
    have hne : ∀ e ∈ t.toList, e.2 / 8 ≠ p + 1 := fun e he heq => hfresh (heq ▸ hg.live e he)
    rw [hkeeps, hr, Option.bind_some]
    dsimp only
    rw [if_neg (Nat.succ_ne_zero p), gcSet_owns ho₁]
    rcases gcInsert hset hne with ⟨hf, h1⟩ | ⟨hf, s₂, h1⟩
    · obtain ⟨s₃, h2, h3, h4, h5⟩ := ho₁.free (.refl _) (by simp [hlive])
      rw [h1, Option.bind_some]
      dsimp only
      rw [if_pos one_ne_zero, h2, Option.map_some, or_iff_left (not_not.mpr hf)]
      have hx' : Ext (fun _ _ => False) s s₃ := fun a ha i hi _ =>
        (hx.trans h4) a ha i hi fun hor => hor.elim id fun heq => hfresh (heq ▸ ha)
      have hlive' : s₃.live.Perm s.live := by rw [h3, hlive, List.erase_cons_head]
      by_cases hl : p + 1 < freeBound h sz
      · rw [if_pos hl] at h5
        refine iff_of_true (fun s' h6 => ?_) hl
        obtain ⟨rfl, -⟩ := Prod.mk.inj (Option.some.inj h6)
        exact ho.restored h5 (.refl _) hlive' hx'
      · rw [if_neg hl] at h5
        refine iff_of_false (fun hall => ?_) hl
        exact ho.not_restored h5 (by simp) (hall s₃ rfl)
    · refine iff_of_true (fun s' h2 => ?_) (.inr hf)
      rw [h1, Option.bind_some] at h2
      exact absurd (Prod.mk.inj (Option.some.inj h2)).2 (Nat.succ_ne_zero p)

/-! ### Ring buffers -/

/-- Writes to a new block leave the older ones. -/
lemma ext_new (hx : Ext (fun _ _ => False) s s') (hw : Ext (fun b _ => b = a) s' s'')
    (ha : a ∉ s.live) : Ext (fun _ _ => False) s s'' := fun b hb i hi _ =>
  (hx.trans hw) b hb i hi fun hor => hor.elim id fun heq => ha (heq ▸ hb)

lemma array_owns (size item : ℕ) (ho : Owns h sz s₀ s U) :
    (array h s size item = some (s, 0) ∧ ¬ Room h sz s (asked (wadd (wmul size item) arrayBsz))) ∨
    ∃ s' q l, array h s size item = some (s', q + 1 + 2) ∧
      Room h sz s (asked (wadd (wmul size item) arrayBsz)) ∧ Owns h sz s₀ s' ((q, l) :: U) ∧
      s'.live = (q + 1) :: s.live ∧ Ext (fun _ _ => False) s s' ∧ q + 1 ∉ s.live := by
  have hn : wadd (wmul size item) arrayBsz < wordMod := Nat.mod_lt _ (by decide)
  rw [array]
  rcases alloc_owns ho hn with ⟨hr, hroom⟩ | ⟨s₁, q, l, hr, -, hroom, ho₁, hlive, hx, hfresh, -⟩
  · exact .inl ⟨by rw [hr]; rfl, hroom⟩
  · have hq : q + 1 ∈ s₁.live := by simp [hlive]
    have hmin := (ho₁.sound.bounds hq).2.2.1
    have w₁ : Wrote h sz (fun b _ => b = q + 1) s₁ (s₁.set (q + 1 + 0) 0) :=
      (Wrote.refl ho₁.sound).set (i := 0) 0 hq (by omega) rfl
    have w₂ := w₁.set (i := 1) item hq (by omega) rfl
    have ho₂ := ((ho₁.set (i := 0) 0 hq (by omega)).1.set (i := 1) item hq
      (by rw [w₁.memSz _ hq]; omega)).1
    refine .inr ⟨_, q, l, ?_, hroom, ho₂, w₂.live.trans hlive, ext_new hx w₂.ext hfresh, hfresh⟩
    rw [hr]
    rfl

/-- There is room for a ring buffer and its array. -/
def RingRoom (h sz : ℕ) (s : HSt) (size item : ℕ) : Prop :=
  1 < size ∧ ∃ s₁ rb, s.alloc h ringBufSz = some (s₁, rb) ∧ rb ≠ 0 ∧
    Room h sz s₁ (asked (wadd (wmul size item) arrayBsz))

/-- The buffer can be given back if its array is refused. -/
def RingKeeps (h sz : ℕ) (s : HSt) (size item : ℕ) : Prop :=
  size ≤ 1 ∨ ∀ s₁ rb, s.alloc h ringBufSz = some (s₁, rb) → rb = 0 ∨ rb < freeBound h sz ∨
    Room h sz s₁ (asked (wadd (wmul size item) arrayBsz))

/-- **`ring_buf`** keeps none of its blocks, or loses one of them, or keeps two. -/
lemma ringBuf_owns (size item : ℕ) (ho : Owns h sz s₀ s U) :
    (¬ RingRoom h sz s size item ∧ ∃ s' V, ringBuf h s size item = some (s', 0) ∧
      s'.live = s.live ∧ Ext (fun _ _ => False) s s' ∧ Owns h sz s₀ s' V ∧
      (RingKeeps h sz s size item ∧ V = U ∨ ¬ RingKeeps h sz s size item ∧ ∃ e, V = e :: U)) ∨
    RingRoom h sz s size item ∧ ∃ s' p k q l, ringBuf h s size item = some (s', p + 1) ∧
      RingKeeps h sz s size item ∧ Owns h sz s₀ s' ((q, l) :: (p, k) :: U) ∧
      s'.live = (q + 1) :: (p + 1) :: s.live ∧ Ext (fun _ _ => False) s s' ∧ p + 1 ∉ s.live := by
  by_cases hsize : size ≤ 1
  · exact .inl ⟨fun hr => absurd hr.1 (by omega), s, U, if_pos hsize, rfl, .refl s, ho,
      .inl ⟨.inl hsize, rfl⟩⟩
  rw [ringBuf, if_neg hsize]
  rcases alloc_owns ho (n := ringBufSz) (by decide) with
    ⟨hr, -⟩ | ⟨s₁, p, k, hr, -, -, ho₁, hlive, hx, hfresh, -⟩
  · have hnull : ∀ s₁ rb, s.alloc h ringBufSz = some (s₁, rb) → rb = 0 := fun s₁ rb h1 =>
      (Prod.mk.inj (Option.some.inj (hr.symm.trans h1))).2.symm
    refine .inl ⟨?_, s, U, by rw [hr]; rfl, rfl, .refl s, ho,
      .inl ⟨.inr fun s₁ rb h1 => .inl (hnull s₁ rb h1), rfl⟩⟩
    rintro ⟨-, s₁, rb, h1, h0, -⟩
    exact h0 (hnull s₁ rb h1)
  have hp : p + 1 ∈ s₁.live := by simp [hlive]
  have hkeeps : RingKeeps h sz s size item ↔ p + 1 < freeBound h sz ∨
      Room h sz s₁ (asked (wadd (wmul size item) arrayBsz)) := by
    constructor
    · exact fun hk => ((hk.resolve_left hsize) s₁ _ hr).resolve_left (Nat.succ_ne_zero p)
    · refine fun hk => .inr fun s₂ rb h1 => .inr ?_
      obtain ⟨rfl, rfl⟩ := Prod.mk.inj (Option.some.inj (hr.symm.trans h1))
      exact hk
  have hroom : RingRoom h sz s size item ↔
      Room h sz s₁ (asked (wadd (wmul size item) arrayBsz)) := by
    constructor
    · rintro ⟨-, s₂, rb, h1, -, h2⟩
      obtain ⟨rfl, rfl⟩ := Prod.mk.inj (Option.some.inj (hr.symm.trans h1))
      exact h2
    · exact fun h1 => ⟨by omega, s₁, p + 1, hr, Nat.succ_ne_zero p, h1⟩
  rw [hkeeps, hroom, hr, Option.bind_some]
  dsimp only
  rw [if_neg (Nat.succ_ne_zero p)]
  rcases array_owns size item ho₁ with
    ⟨h1, h2⟩ | ⟨s₂, q, l, h1, h2, ho₂, hlive₂, hx₂, hfresh₂⟩
  · -- the buffer is given back
    obtain ⟨s₃, h3, h4, h5, h6⟩ := ho₁.free (.refl _) hp
    have hlive₃ : s₃.live = s.live := by rw [h4, hlive, List.erase_cons_head]
    rw [h1, Option.bind_some, if_pos rfl, h3, Option.map_some, or_iff_left h2]
    refine .inl ⟨h2, s₃, _, rfl, hlive₃, ext_new hx h5 hfresh, h6, ?_⟩
    by_cases hl : p + 1 < freeBound h sz
    · exact .inl ⟨hl, if_pos hl⟩
    · exact .inr ⟨hl, _, if_neg hl⟩
  · have hp₂ : p + 1 ∈ s₂.live := by simp [hlive₂, hp]
    have hmin := (ho₂.sound.bounds hp₂).2.2.1
    have w₁ : Wrote h sz (fun b _ => b = p + 1) s₂ (s₂.setPtr (buf (p + 1)) (q + 1 + 2)) :=
      (Wrote.refl ho₂.sound).set (i := 0) (8 * (q + 1 + 2)) hp₂ (by omega) rfl
    have w₂ := w₁.set (i := 1) 0 hp₂ (by omega) rfl
    have w₃ := w₂.set (i := 2) 0 hp₂ (by omega) rfl
    have ho₃ := (((ho₂.set (i := 0) (8 * (q + 1 + 2)) hp₂ (by omega)).1.set (i := 1) 0 hp₂
      ((w₁.memSz _ hp₂).symm ▸ by omega)).1.set (i := 2) 0 hp₂
      ((w₂.memSz _ hp₂).symm ▸ by omega)).1
    have hx₃ : Ext (fun _ _ => False) s s₂ := (hx.trans hx₂).mono fun _ _ hor => hor.elim id id
    refine .inr ⟨h2, _, p, k, q, l, ?_, .inr h2, ho₃, ?_, ext_new hx₃ w₃.ext hfresh, hfresh⟩
    · rw [h1, Option.bind_some, if_neg (by omega)]
      rfl
    · exact w₃.live.trans (hlive₂.trans (congrArg _ hlive))

/-- **`ring_buf`**. -/
lemma ringBuf_iff (size item : ℕ) (hs : Sound h sz s) :
    AllOrNothing h s (ringBuf h s size item) ↔ RingKeeps h sz s size item := by
  obtain ⟨U, ho⟩ := Owns.of_sound hs
  rcases ringBuf_owns size item ho with
    ⟨-, s', V, h1, hlive, hx, ho', h2⟩ | ⟨-, s', p, k, q, l, h1, h2, -⟩
  · rw [h1]
    rcases h2 with ⟨h2, rfl⟩ | ⟨h2, e, rfl⟩
    · refine iff_of_true (fun s'' h3 => ?_) h2
      obtain ⟨rfl, -⟩ := Prod.mk.inj (Option.some.inj h3)
      exact ho.restored ho' (.refl _) (hlive ▸ .refl _) hx
    · exact iff_of_false (fun hall => ho.not_restored ho' (by simp) (hall s' rfl)) h2
  · refine iff_of_true (fun s'' h3 => ?_) h2
    exact absurd (Prod.mk.inj (Option.some.inj (h1.symm.trans h3))).2 (Nat.succ_ne_zero p)

/-! ### Concurrent FIFOs -/

/-- If the first buffer is refused, its block and the one of the FIFO can be given back; if it is
granted, so is the second one. -/
def FifoKeeps (h sz : ℕ) (s : HSt) (primary secondary item : ℕ) : Prop :=
  ∀ s₁ cf, s.alloc h fifoSz = some (s₁, cf) → cf = 0 ∨
    (¬ RingRoom h sz s₁ primary (wadd item 1) ∧ RingKeeps h sz s₁ primary (wadd item 1) ∧
      cf < freeBound h sz) ∨
    RingRoom h sz s₁ primary (wadd item 1) ∧
      ∀ s₂ a, ringBuf h s₁ primary (wadd item 1) = some (s₂, a) →
        RingRoom h sz (s₂.setPtr (fifoA cf) a) secondary (wadd item 1)

/-- Of three new blocks, two are given back. -/
lemma left_over {j : ℕ} (ho : Owns h sz s s U) (ho' : Owns h sz s s' V)
    (hp : (p, k) ∈ V) (hc : (c, j) ∈ V) (hne : c ≠ p) (hlen : U.length + 3 ≤ V.length)
    (hp' : p + 1 ∈ s'.live) (hc' : c + 1 ∈ s'.live) :
    ∃ s₁ s₂, s'.free h (p + 1) = some s₁ ∧ s₁.free h (c + 1) = some s₂ ∧ ¬ Restored h s s₂ := by
  obtain ⟨s₁, h1, h2, -, ho₁⟩ := ho'.free (List.perm_cons_erase hp) hp'
  have hc₁ : c + 1 ∈ s₁.live := by
    rw [h2]
    exact (List.mem_erase_of_ne fun heq => hne (Nat.succ_injective heq)).mpr hc'
  set W := if p + 1 < freeBound h sz then V.erase (p, k) else V
  have hmem : (c, j) ∈ W := by
    by_cases hl : p + 1 < freeBound h sz
    · rw [show W = V.erase (p, k) from if_pos hl]
      exact (List.mem_erase_of_ne fun heq => hne (Prod.mk.inj heq).1).mpr hc
    · rw [show W = V from if_neg hl]
      exact hc
  have hW : U.length + 2 ≤ W.length := by
    by_cases hl : p + 1 < freeBound h sz
    · rw [show W = V.erase (p, k) from if_pos hl, List.length_erase_of_mem hp]
      omega
    · rw [show W = V from if_neg hl]
      omega
  obtain ⟨s₂, h3, -, -, ho₂⟩ := ho₁.free (List.perm_cons_erase hmem) hc₁
  refine ⟨s₁, s₂, h1, h3, ho.not_restored ho₂ ?_⟩
  split_ifs
  · rw [List.length_erase_of_mem hmem]
    omega
  · omega

/-- **`concurrent_fifo`**: the array of the first buffer is lost when the second one is refused. -/
lemma concurrentFifo_iff (primary secondary item : ℕ) (hs : Sound h sz s) :
    AllOrNothing h s (concurrentFifo h s primary secondary item) ↔
      FifoKeeps h sz s primary secondary item := by
  obtain ⟨U, ho⟩ := Owns.of_sound hs
  rw [concurrentFifo]
  rcases alloc_owns ho (n := fifoSz) (by decide) with
    ⟨hr, -⟩ | ⟨s₁, c, j, hr, -, -, ho₁, hlive, hx, hfresh, -⟩
  · refine iff_of_true (fun s' h1 => ?_) fun s₁ cf h1 => .inl ?_
    · rw [hr, Option.bind_some] at h1
      obtain ⟨rfl, -⟩ := Prod.mk.inj (Option.some.inj ((if_pos rfl).symm.trans h1))
      exact .refl h s
    · exact (Prod.mk.inj (Option.some.inj (hr.symm.trans h1))).2.symm
  have hc : c + 1 ∈ s₁.live := by simp [hlive]
  have hkeeps : FifoKeeps h sz s primary secondary item ↔
      (¬ RingRoom h sz s₁ primary (wadd item 1) ∧ RingKeeps h sz s₁ primary (wadd item 1) ∧
        c + 1 < freeBound h sz) ∨
      RingRoom h sz s₁ primary (wadd item 1) ∧
        ∀ s₂ a, ringBuf h s₁ primary (wadd item 1) = some (s₂, a) →
          RingRoom h sz (s₂.setPtr (fifoA (c + 1)) a) secondary (wadd item 1) := by
    constructor
    · exact fun hk => (hk s₁ _ hr).resolve_left (Nat.succ_ne_zero c)
    · intro hk s₂ cf h1
      obtain ⟨rfl, rfl⟩ := Prod.mk.inj (Option.some.inj (hr.symm.trans h1))
      exact .inr hk
  rw [hkeeps, hr, Option.bind_some]
  dsimp only
  rw [if_neg (Nat.succ_ne_zero c)]
  rcases ringBuf_owns primary (wadd item 1) ho₁ with
    ⟨hno, s₂, V, h1, hlive₂, hx₂, ho₂, hV⟩ | ⟨hroom, s₂, p, k, q, l, h1, -, ho₂, hlive₂, hx₂, -⟩
  · -- the first buffer is refused
    have hc₂ : c + 1 ∈ s₂.live := hlive₂ ▸ hc
    have hmin := (ho₂.sound.bounds hc₂).2.2.1
    have w₃ : Wrote h sz (fun b _ => b = c + 1) s₂ (s₂.setPtr (fifoA (c + 1)) 0) :=
      (Wrote.refl ho₂.sound).set (i := 0) (8 * 0) hc₂ (by omega) rfl
    have ho₃ := (ho₂.set (i := 0) (8 * 0) hc₂ (by omega)).1
    obtain ⟨V', hV', hlen⟩ : ∃ V', V.Perm ((c, j) :: V') ∧
        (RingKeeps h sz s₁ primary (wadd item 1) ∧ V' = U ∨
          ¬ RingKeeps h sz s₁ primary (wadd item 1) ∧ ∃ e, V' = e :: U) := by
      rcases hV with ⟨h2, rfl⟩ | ⟨h2, e, rfl⟩
      · exact ⟨U, .refl _, .inl ⟨h2, rfl⟩⟩
      · exact ⟨e :: U, .swap .., .inr ⟨h2, e, rfl⟩⟩
    obtain ⟨s₄, h3, h4, h5, h6⟩ := ho₃.free hV' (w₃.live ▸ hc₂)
    have hcode : (s₂.setPtr (fifoA (c + 1)) 0).free h (c + 1) = some s₄ := h3
    rw [h1, Option.bind_some]
    dsimp only
    rw [if_pos rfl, hcode, Option.map_some, or_iff_left fun hr => hno hr.1, and_iff_right hno]
    have hlive₄ : s₄.live = s.live := by
      have h7 : (s₂.set (c + 1 + 0) (8 * 0)).live = (c + 1) :: s.live :=
        w₃.live.trans (hlive₂.trans hlive)
      rw [h4, h7, List.erase_cons_head]
    have hx₄ : Ext (fun _ _ => False) s s₄ := by
      have h7 : Ext (fun _ _ => False) s s₂ := (hx.trans hx₂).mono fun _ _ hor => hor.elim id id
      exact ext_new h7 ((w₃.ext.trans h5).mono fun _ _ hor => hor.elim id id) hfresh
    by_cases hl : c + 1 < freeBound h sz
    · rw [if_pos hl] at h6
      rcases hlen with ⟨h2, rfl⟩ | ⟨h2, e, rfl⟩
      · refine iff_of_true (fun s' h7 => ?_) ⟨h2, hl⟩
        obtain ⟨rfl, -⟩ := Prod.mk.inj (Option.some.inj h7)
        exact ho.restored h6 (.refl _) (hlive₄ ▸ .refl _) hx₄
      · exact iff_of_false (fun hall => ho.not_restored h6 (by simp) (hall s₄ rfl))
          fun hk => h2 hk.1
    · rw [if_neg hl] at h6
      refine iff_of_false (fun hall => ho.not_restored h6 ?_ (hall s₄ rfl)) fun hk => hl hk.2
      have h7 := hV'.length_eq
      rcases hlen with ⟨-, rfl⟩ | ⟨-, e, rfl⟩ <;> simp only [List.length_cons] at h7 <;> omega
  · have hc₂ : c + 1 ∈ s₂.live := by simp [hlive₂, hc]
    have hp₂ : p + 1 ∈ s₂.live := by simp [hlive₂]
    have hmin := (ho₂.sound.bounds hc₂).2.2.1
    have w₃ : Wrote h sz (fun b _ => b = c + 1) s₂ (s₂.setPtr (fifoA (c + 1)) (p + 1)) :=
      (Wrote.refl ho₂.sound).set (i := 0) (8 * (p + 1)) hc₂ (by omega) rfl
    have ho₃ : Owns h sz s (s₂.setPtr (fifoA (c + 1)) (p + 1)) ((q, l) :: (p, k) :: (c, j) :: U) :=
      (ho₂.set (i := 0) (8 * (p + 1)) hc₂ (by omega)).1
    have hsecond : (∀ s₂ a, ringBuf h s₁ primary (wadd item 1) = some (s₂, a) →
          RingRoom h sz (s₂.setPtr (fifoA (c + 1)) a) secondary (wadd item 1)) ↔
        RingRoom h sz (s₂.setPtr (fifoA (c + 1)) (p + 1)) secondary (wadd item 1) := by
      refine ⟨fun hk => hk s₂ _ h1, fun hk s₃ a h2 => ?_⟩
      obtain ⟨rfl, rfl⟩ := Prod.mk.inj (Option.some.inj (h1.symm.trans h2))
      exact hk
    rw [or_iff_right fun hk => hk.1 hroom, and_iff_right hroom, hsecond, h1, Option.bind_some]
    dsimp only
    rw [if_neg (Nat.succ_ne_zero p)]
    have hptr₃ : (s₂.setPtr (fifoA (c + 1)) (p + 1)).mem (c + 1 + 0) = 8 * (p + 1) := setPtr_self ..
    generalize s₂.setPtr (fifoA (c + 1)) (p + 1) = s₃ at *
    have hc₃ : c + 1 ∈ s₃.live := w₃.live ▸ hc₂
    have hp₃ : p + 1 ∈ s₃.live := w₃.live ▸ hp₂
    have hmin₃ := (ho₃.sound.bounds hc₃).2.2.1
    rcases ringBuf_owns secondary (wadd item 1) ho₃ with
      ⟨hno, s₄, V, h2, hlive₄, hx₄, ho₄, hV⟩ | ⟨hroom', s₄, p', k', q', l', h2, -⟩
    · -- of the first buffer, only the header is given back
      have hc₄ : c + 1 ∈ s₄.live := hlive₄ ▸ hc₃
      have hp₄ : p + 1 ∈ s₄.live := hlive₄ ▸ hp₃
      have hmin₄ := (ho₄.sound.bounds hc₄).2.2.1
      have ho₅ : Owns h sz s (s₄.setPtr (fifoB (c + 1)) 0) V :=
        (ho₄.set (i := 1) (8 * 0) hc₄ (by omega)).1
      have hptr : (s₄.setPtr (fifoB (c + 1)) 0).mem.ptr (fifoA (c + 1)) = p + 1 := by
        refine ptr_of_eq ((setPtr_ne _ _ (by unfold fifoA fifoB; omega)).trans ?_)
        exact ((hx₄ _ hc₃ 0 (by omega) id).word).trans hptr₃
      have hne : c ≠ p := by
        have := ho₂.sound.nodup
        rw [hlive₂] at this
        rintro rfl
        exact (List.nodup_cons.mp (List.nodup_cons.mp this).2).1 hc
      have hmem : (p, k) ∈ V ∧ (c, j) ∈ V ∧ U.length + 3 ≤ V.length := by
        rcases hV with ⟨-, rfl⟩ | ⟨-, e, rfl⟩ <;> simp
      have hlive₅ : (s₄.setPtr (fifoB (c + 1)) 0).live = s₄.live := rfl
      obtain ⟨s₆, s₇, h3, h4, h5⟩ := left_over ho ho₅ hmem.1 hmem.2.1 hne hmem.2.2
        (hlive₅ ▸ hp₄) (hlive₅ ▸ hc₄)
      refine iff_of_false (fun hall => h5 (hall s₇ ?_)) hno
      rw [h2, Option.bind_some]
      dsimp only
      rw [if_pos rfl, hptr, h3, Option.bind_some, h4]
      rfl
    · refine iff_of_true (fun s' h3 => ?_) hroom'
      rw [h2, Option.bind_some] at h3
      dsimp only at h3
      rw [if_neg (Nat.succ_ne_zero p')] at h3
      exact absurd (Prod.mk.inj (Option.some.inj h3)).2 (Nat.succ_ne_zero c)

/-! ### Objects -/

/-- A new object without contents. -/
structure NewAt (h sz ty nw : ℕ) (s s₁ s' : HSt) (o : ℕ) : Prop where
  live : s'.live = (o + 1) :: s.live
  fresh : o + 1 ∉ s.live
  ext : Ext (fun b i => b = ty + 1 ∧ i = 0) s s'
  room : ∀ x, Room h sz s' x ↔ Room h sz s₁ x
  memSz : getMemSz s'.mem (o + 1) = getMemSz s₁.mem (o + 1)
  refcount : s'.mem (refcount o) = 0
  type : s'.mem (type o) = 8 * ty
  size : s'.mem (size o) = nw
  counted : s'.mem (Object.refcount ty) = wadd (s.mem (Object.refcount ty)) 1

/-- The words that `object` asks for. -/
def objectReq (k : ℕ) : ℕ := wsub (wadd k objSz) 1

lemma object_owns (ty k nw : ℕ) (ho : Owns h sz s₀ s U) (hty : ty + 1 ∈ s.live) (hnw : nw ≤ k) :
    (object h s ty k 0 nw = some (s, 0) ∧ ¬ Room h sz s (asked (objectReq k)) ∧
      s.alloc h (objectReq k) = some (s, 0)) ∨
    ∃ s₁ s' p j, s.alloc h (objectReq k) = some (s₁, p + 1) ∧ p ≠ 0 ∧
      object h s ty k 0 nw = some (s', p) ∧ Room h sz s (asked (objectReq k)) ∧
      Owns h sz s₀ s' ((p, j) :: U) ∧ NewAt h sz ty nw s s₁ s' p ∧
      (objectReq k + umdsSz < wordMod → objectReq k ≤ getMemSz s'.mem (p + 1)) := by
  have htyb := ho.sound.bounds hty
  have hn : objectReq k < wordMod := Nat.mod_lt _ (by decide)
  rw [object, if_neg (by omega), ← objectReq]
  rcases alloc_owns ho hn with
    ⟨hr, hno⟩ | ⟨s₁, p, j, hr, hp0, hroom, ho₁, hlive, hx, hfresh, hsize⟩
  · exact .inl ⟨by rw [hr]; rfl, hno, hr⟩
  have hp : p + 1 ∈ s₁.live := by simp [hlive]
  have hty₁ : ty + 1 ∈ s₁.live := by simp [hlive, hty]
  have hmin := (ho₁.sound.bounds hp).2.2.1
  have hmin' := (ho₁.sound.bounds hty₁).2.2.1
  have hne : ty + 1 ≠ p + 1 := fun heq => hfresh (heq ▸ hty)
  have hapart : ∀ i < 3, refcount ty ≠ p + 1 + i := fun i hi heq =>
    hne (ho₁.sound.word_inj (i := 0) hty₁ hp (by omega) (by omega) heq).1
  have h0 := hapart 0 (by omega)
  have h1 := hapart 1 (by omega)
  have h2 := hapart 2 (by omega)
  -- the four writes
  obtain ⟨s', hs'⟩ : ∃ s', (incRefcount ((s₁.set (refcount p) 0).setPtr (type p) ty) ty 1).set
    (size p) nw = s' := ⟨_, rfl⟩
  have hw : Wrote h sz (fun b i => b = p + 1 ∨ b = ty + 1 ∧ i = 0) s₁ s' := by
    have w₁ : Wrote h sz (fun b i => b = p + 1 ∨ b = ty + 1 ∧ i = 0) s₁ (s₁.set (refcount p) 0) :=
      (Wrote.refl ho₁.sound).set (a := p + 1) (i := 0) 0 hp (by omega) (.inl rfl)
    have w₂ := w₁.set (a := p + 1) (i := 1) (8 * ty) hp (by omega) (.inl rfl)
    have w₃ := w₂.incRefcount 1 hty₁ (.inr ⟨rfl, rfl⟩)
    exact hs' ▸ w₃.set (a := p + 1) (i := 2) nw hp (by omega) (.inl rfl)
  have hval : ∀ x, s'.mem x = if x = size p then nw else if x = refcount ty then
      wadd (s₁.mem (refcount ty)) 1 else if x = type p then 8 * ty else
      if x = refcount p then 0 else s₁.mem x := by
    intro x
    have h3 : ((s₁.set (refcount p) 0).setPtr (type p) ty).mem (refcount ty) =
        s₁.mem (refcount ty) := (setPtr_ne _ _ h1).trans (set_ne _ _ h0)
    rw [← hs', mem_set, incRefcount, mem_set, h3]
    rfl
  obtain ⟨ho₂, hroom₂⟩ := ho₁.users hw.live fun x hx => by
    have h3 := hx _ hp 0 (by omega)
    have h4 := hx _ hp 1 (by omega)
    have h5 := hx _ hp 2 (by omega)
    have h6 := hx _ hty₁ 0 (by omega)
    unfold size refcount type at *
    rw [hval, if_neg (by omega), if_neg (by omega), if_neg (by omega), if_neg (by omega)]
  have hword : s₁.mem (refcount ty) = s.mem (refcount ty) := (hx _ hty 0 (by omega) id).word
  refine .inr ⟨s₁, s', p, j, hr, hp0, ?_, hroom, ho₂, ⟨hw.live.trans hlive, hfresh, ?_, hroom₂,
    hw.memSz _ hp, ?_, ?_, ?_, ?_⟩, fun hfit => ?_⟩
  · rw [hr, Option.map_some]
    dsimp only
    have hty0 : ty ≠ 0 := by omega
    rw [if_neg (Nat.succ_ne_zero p), Nat.add_sub_cancel, if_pos hty0, if_neg (not_not.mpr rfl),
      hs']
  · intro b hb i hi hn
    refine (hx.trans hw.ext) b hb i hi ?_
    rintro (hf | rfl | hf)
    · exact hf
    · exact hfresh hb
    · exact hn hf
  · unfold size refcount type at *
    rw [hval, if_neg (by omega), if_neg (by omega), if_neg (by omega), if_pos rfl]
  · unfold size refcount type at *
    rw [hval, if_neg (by omega), if_neg (by omega), if_pos rfl]
  · rw [hval, if_pos rfl]
  · unfold size refcount type at *
    rw [hval, if_neg (by omega), if_pos rfl, hword]
  · rw [hw.memSz _ hp]
    exact hsize hfit

/-! ### The types -/

/-- The objects of the types with their names. -/
def typeNames (ty : Types) : List (ℕ × String) :=
  [(ty.stringType, "str"), (ty.numType, "num"), (ty.arrayType, "arr"), (ty.subarrayType, "sar"),
    (ty.setType, "set"), (ty.functionType, "fun"), (ty.cellType, "cel"), (ty.bcodeType, "bco")]

/-- The types are there, each with a reference to it and its count below the largest word. -/
structure TypesAt (s : HSt) (ty : Types) : Prop where
  named : ∀ x ∈ typeNames ty, NumAt s x.1 (chars x.2)
  counted : ∀ x ∈ typeNames ty, 0 < s.mem (refcount x.1) ∧ s.mem (refcount x.1) + 1 < wordMod

/-! ### Arrays of objects -/

/-- The storage can be given back if the array is refused. -/
def ArrayKeeps (h sz : ℕ) (s : HSt) (k : ℕ) : Prop :=
  ∀ s₁ a, s.alloc h (objectReq k) = some (s₁, a) →
    a = 0 ∨ a < freeBound h sz ∨ Room h sz s₁ (asked (objectReq 1))

/-- The last reference to an empty storage is deleted, and with it one to its type. -/
lemma delete_storage (loc : ℕ) {ty : Types} (ho : Owns h sz s₀ s ((p, k) :: U))
    (hnamed : ∀ x ∈ typeNames ty, NumAt s x.1 (chars x.2)) (hp : p + 1 ∈ s.live)
    (hne : ∀ x ∈ typeNames ty, x.1 ≠ p) (htype : s.mem (type p) = 8 * ty.subarrayType)
    (hone : s.mem (refcount p) = 1) (hsize : s.mem (size p) = 0)
    (hcount : wsub (s.mem (refcount ty.subarrayType)) 1 ≠ 0) :
    ∃ s', objectDelete h loc ty s p = some s' ∧ s'.live = s.live.erase (p + 1) ∧
      Ext (fun b i => b = p + 1 ∨ b = ty.subarrayType + 1 ∧ i = 0) s s' ∧
      Owns h sz s₀ s' (if p + 1 < freeBound h sz then U else (p, k) :: U) ∧
      s'.mem (refcount ty.subarrayType) = wsub (s.mem (refcount ty.subarrayType)) 1 := by
  have hmin := ho.sound.bounds hp
  have hsub : (ty.subarrayType, "sar") ∈ typeNames ty := by simp [typeNames]
  have w₁ : Wrote h sz (fun b _ => b = p + 1) s (s.set (refcount p) 0) :=
    (Wrote.refl ho.sound).set (a := p + 1) (i := 0) 0 hp (by omega) rfl
  have ho₁ := (ho.set (i := 0) 0 hp (by omega)).1
  have hnamed₁ : ∀ x ∈ typeNames ty, NumAt (s.set (refcount p) 0) x.1 (chars x.2) := fun x hx => by
    have h1 : x.1 + 1 ≠ p + 1 := fun heq => hne x hx (Nat.succ_injective heq)
    exact (hnamed x hx).ext w₁.ext h1 fun _ _ => h1
  obtain ⟨s₂, h2, h3, h4, ho₂⟩ := ho₁.free (.refl _) (w₁.live ▸ hp)
  have h2' : (s.set (refcount p) 0).free h (p + 1) = some s₂ := h2
  have hlive₂ : s₂.live = s.live.erase (p + 1) := h3
  -- the type is not the storage
  have hst := (hnamed _ hsub).live
  have hb := ho.sound.bounds hst
  have hne' : ty.subarrayType + 1 ≠ p + 1 := fun heq => hne _ hsub (Nat.succ_injective heq)
  have hword := (w₁.ext.trans h4) _ hst 0 (by omega) (not_or.mpr ⟨hne', hne'⟩)
  have hword' : s₂.mem (refcount ty.subarrayType) = s.mem (refcount ty.subarrayType) := hword.word
  have hw₃ : Wrote h sz (fun b i => b = ty.subarrayType + 1 ∧ i = 0) s₂
      (s₂.set (refcount ty.subarrayType) (wsub (s₂.mem (refcount ty.subarrayType)) 1)) :=
    (Wrote.refl ho₂.sound).set (a := ty.subarrayType + 1) (i := 0) _ hword.live
      (by rw [hword.memSz]; omega) ⟨rfl, rfl⟩
  have ho₃ := (ho₂.set (a := ty.subarrayType + 1) (i := 0)
    (wsub (s₂.mem (refcount ty.subarrayType)) 1) hword.live (by rw [hword.memSz]; omega)).1
  refine ⟨_, ?_, hw₃.live.trans hlive₂, ?_, ho₃, ?_⟩
  · have hcmp : ∀ o str, (o, str) ∈ typeNames ty → chars "sar" ≠ chars str →
        Sets.objCmp (s.set (refcount p) 0).mem ty.subarrayType o ≠ 0 := fun o str hmem hstr =>
      (objCmp_numbers (hnamed₁ _ hsub) (hnamed₁ _ hmem)).not.mpr hstr
    have hnum := hcmp ty.numType "num" (by simp [typeNames]) (by decide)
    have hstr := hcmp ty.stringType "str" (by simp [typeNames]) (by decide)
    have hbco := hcmp ty.bcodeType "bco" (by simp [typeNames]) (by decide)
    have hset := hcmp ty.setType "set" (by simp [typeNames]) (by decide)
    have hsar : Sets.objCmp (s.set (refcount p) 0).mem ty.subarrayType ty.subarrayType = 0 :=
      (objCmp_numbers (hnamed₁ _ hsub) (hnamed₁ _ hsub)).mpr rfl
    obtain ⟨n, hn⟩ : ∃ n, fuel = n + 2 := ⟨fuel - 2, by decide⟩
    have hptr : s.mem.ptr (type p) = ty.subarrayType := ptr_of_eq htype
    have hptr₁ : (s.set (refcount p) 0).mem.ptr (type p) = ty.subarrayType :=
      ptr_of_eq ((set_ne _ _ (by unfold type refcount; omega)).trans htype)
    have hsize₁ : (s.set (refcount p) 0).mem (size p) = 0 :=
      (set_ne _ _ (by unfold size refcount; omega)).trans hsize
    have hzero : s.set (refcount p) (wsub (s.mem (refcount p)) 1) = s.set (refcount p) 0 := by
      rw [hone]
      rfl
    have hrc : (s.set (refcount p) 0).mem (refcount p) = 0 := set_self ..
    have hrc' : (s₂.set (refcount ty.subarrayType)
        (wsub (s₂.mem (refcount ty.subarrayType)) 1)).mem (refcount ty.subarrayType) ≠ 0 := by
      rw [mem_set, if_pos rfl, hword']
      exact hcount
    have hp0 : p ≠ 0 := by omega
    have hsub0 : ty.subarrayType ≠ 0 := by omega
    rw [objectDelete, hn, NumHeap.objectDelete, if_neg hp0]
    dsimp only
    rw [hptr, hzero, if_neg (not_not.mpr hrc),
      if_neg (not_or.mpr ⟨hnum, not_or.mpr ⟨hstr, hbco⟩⟩), deleteOthers]
    rw [hptr₁, if_neg hset, if_pos (.inr hsar), hn, deleteContents, hsize₁,
      if_neg (Nat.not_lt_zero 0), Option.bind_some, h2', Option.bind_some, NumHeap.objectDelete,
      if_neg hsub0]
    dsimp only
    exact if_pos hrc'
  · refine ((w₁.ext.trans h4).trans hw₃.ext).mono fun b i hor => ?_
    exact hor.imp_left fun hor => hor.elim id id
  · rw [mem_set, if_pos rfl, hword']


lemma objArray_iff {loc : ℕ} {ty : Types} (k : ℕ) (hs : Sound h sz s) (hty : TypesAt s ty) :
    AllOrNothing h s (objArray h loc ty s k) ↔ ArrayKeeps h sz s k := by
  obtain ⟨U, ho⟩ := Owns.of_sound hs
  have hsub : (ty.subarrayType, "sar") ∈ typeNames ty := by simp [typeNames]
  have harr : (ty.arrayType, "arr") ∈ typeNames ty := by simp [typeNames]
  have hsubl : ty.subarrayType + 1 ∈ s.live := (hty.named _ hsub).live
  have hsubb := (hs.bounds hsubl).2.2.1
  rw [objArray]
  rcases object_owns ty.subarrayType k 0 ho hsubl (Nat.zero_le _) with
    ⟨h1, -, h2⟩ | ⟨s₁, s₂, p, j, h1, hp0, h2, -, ho₂, hn₂, -⟩
  · refine iff_of_true (fun s' h3 => ?_) fun s₁ a h3 => ?_
    · rw [h1, Option.bind_some] at h3
      dsimp only at h3
      rw [if_pos rfl] at h3
      obtain ⟨rfl, -⟩ := Prod.mk.inj (Option.some.inj h3)
      exact .refl h s
    · exact .inl (Prod.mk.inj (Option.some.inj (h3.symm.trans h2))).2
  have hkeeps : ArrayKeeps h sz s k ↔
      p + 1 < freeBound h sz ∨ Room h sz s₂ (asked (objectReq 1)) := by
    refine ⟨fun hk => ?_, fun hor s₃ a h3 => .inr ?_⟩
    · exact ((hk s₁ _ h1).resolve_left (Nat.succ_ne_zero p)).imp_right (hn₂.room _).mpr
    · obtain ⟨rfl, rfl⟩ := Prod.mk.inj (Option.some.inj (h3.symm.trans h1))
      exact hor.imp_right (hn₂.room _).mp
  rw [hkeeps, h2, Option.bind_some]
  dsimp only
  rw [if_neg hp0]
  -- the array's reference to the storage
  have hp : p + 1 ∈ s₂.live := by simp [hn₂.live]
  have hmin := (ho₂.sound.bounds hp).2.2.1
  have hne : ∀ x ∈ typeNames ty, x.1 ≠ p := fun x hx heq =>
    hn₂.fresh (heq ▸ (hty.named x hx).live)
  have w₃ : Wrote h sz (fun b _ => b = p + 1) s₂ (incRefcount s₂ p 1) :=
    (Wrote.refl ho₂.sound).incRefcount 1 hp rfl
  have hx₃ := hn₂.ext.trans w₃.ext
  have hnamed : ∀ x ∈ typeNames ty, NumAt (incRefcount s₂ p 1) x.1 (chars x.2) := fun x hx => by
    have h3 : x.1 + 1 ≠ p + 1 := fun heq => hne x hx (Nat.succ_injective heq)
    refine (hty.named x hx).ext hx₃ (fun hor => ?_) fun i _ hor => ?_
    · exact hor.elim (fun h4 => absurd h4.2 (by omega)) h3
    · exact hor.elim (fun h4 => absurd h4.2 (by omega)) h3
  have ho₃ : Owns h sz s (incRefcount s₂ p 1) ((p, j) :: U) :=
    (ho₂.set (a := p + 1) (i := 0) _ hp (by omega)).1
  have hroom₃ : Room h sz s₂ (asked (objectReq 1)) ↔
      Room h sz (incRefcount s₂ p 1) (asked (objectReq 1)) :=
    ((ho₂.set (a := p + 1) (i := 0) _ hp (by omega)).2 _).symm
  have hone : (incRefcount s₂ p 1).mem (refcount p) = 1 := by
    rw [incRefcount, mem_set, if_pos rfl, hn₂.refcount]
    rfl
  have htype : (incRefcount s₂ p 1).mem (type p) = 8 * ty.subarrayType :=
    (set_ne _ _ (by unfold type refcount; omega)).trans hn₂.type
  have hsize : (incRefcount s₂ p 1).mem (size p) = 0 :=
    (set_ne _ _ (by unfold size refcount; omega)).trans hn₂.size
  have hcounted : (incRefcount s₂ p 1).mem (refcount ty.subarrayType) =
      wadd (s.mem (refcount ty.subarrayType)) 1 := by
    refine (set_ne _ _ ?_).trans hn₂.counted
    exact fun heq => hne _ hsub (Nat.add_right_cancel heq)
  rw [hroom₃]
  generalize incRefcount s₂ p 1 = s₃ at *
  rcases object_owns ty.arrayType 1 0 ho₃ (hnamed _ harr).live (Nat.zero_le _) with
    ⟨h3, hno, -⟩ | ⟨s₄, s₅, q, l, -, hq0, h3, hroom, -⟩
  · obtain ⟨hpos, hlt⟩ : 0 < s.mem (refcount ty.subarrayType) ∧
      s.mem (refcount ty.subarrayType) + 1 < wordMod := hty.counted _ hsub
    have hback : wsub (wadd (s.mem (refcount ty.subarrayType)) 1) 1 =
      s.mem (refcount ty.subarrayType) := wsub_wadd (by omega)
    obtain ⟨s₄, h4, h5, hx₄, ho₄, hcount⟩ := delete_storage loc ho₃ hnamed (w₃.live ▸ hp)
      hne htype hone hsize (by rw [hcounted, hback]; omega)
    rw [or_iff_left hno, h3, Option.bind_some]
    dsimp only
    rw [if_pos rfl, h4, Option.map_some]
    have hlive₄ : s₄.live = s.live := by
      rw [h5, w₃.live, hn₂.live, List.erase_cons_head]
    by_cases hl : p + 1 < freeBound h sz
    · rw [if_pos hl] at ho₄
      refine iff_of_true (fun s' h6 => ?_) hl
      obtain ⟨rfl, -⟩ := Prod.mk.inj (Option.some.inj h6)
      refine ho.restored ho₄ (.refl _) (hlive₄ ▸ .refl _) fun b hb i hi _ => ?_
      -- the count of the storage's type is back
      have hbp : b ≠ p + 1 := fun heq => hn₂.fresh (heq ▸ hb)
      have hx := hx₃.trans hx₄
      by_cases hb0 : b = ty.subarrayType + 1 ∧ i = 0
      · obtain ⟨rfl, rfl⟩ := hb0
        have h6 := hx _ hb 1 (by omega) (by rintro ((⟨-, h6⟩ | h6) | h6 | ⟨-, h6⟩) <;> omega)
        exact ⟨h6.live, h6.memSz, hcount.trans (by rw [hcounted, hback]; rfl)⟩
      · refine hx b hb i hi ?_
        rintro ((h6 | h6) | h6 | h6)
        · exact hb0 h6
        · exact hbp h6
        · exact hbp h6
        · exact hb0 h6
    · rw [if_neg hl] at ho₄
      exact iff_of_false (fun hall => ho.not_restored ho₄ (by simp) (hall s₄ rfl)) hl
  · refine iff_of_true (fun s' h4 => ?_) (.inr hroom)
    rw [h3, Option.bind_some] at h4
    dsimp only at h4
    rw [if_neg hq0] at h4
    exact absurd (Prod.mk.inj (Option.some.inj h4)).2 hq0

/-! ### Functions -/

lemma set_owns {ty : Types} (ho : Owns h sz s₀ s U) (hty : ty.setType + 1 ∈ s.live) :
    (set h ty s = some (s, 0) ∧ ¬ Room h sz s (asked (objectReq 1))) ∨
    ∃ s' p j, set h ty s = some (s', p) ∧ p ≠ 0 ∧ Owns h sz s₀ s' ((p, j) :: U) ∧
      s'.live = (p + 1) :: s.live ∧ p + 1 ∉ s.live ∧
      Ext (fun b i => b = ty.setType + 1 ∧ i = 0) s s' := by
  rcases object_owns ty.setType 1 1 ho hty le_rfl with
    ⟨h1, hno, -⟩ | ⟨s₀, s₁, p, j, -, hp0, h1, -, ho₁, hn, hsize⟩
  · exact .inl ⟨by rw [Construct.set, h1]; rfl, hno⟩
  have hp : p + 1 ∈ s₁.live := by simp [hn.live]
  have hfits : 4 ≤ getMemSz s₁.mem (p + 1) := hsize (by decide)
  have hw : Wrote h sz (fun b _ => b = p + 1) s₁ (s₁.set (contents p 0) 0) :=
    (Wrote.refl ho₁.sound).set (a := p + 1) (i := 3) 0 hp (by omega) rfl
  have h2 : set h ty s = some (s₁.set (contents p 0) 0, p) := by
    rw [Construct.set, h1]
    exact congrArg some (if_neg hp0)
  refine .inr ⟨_, p, j, h2, hp0,
    (ho₁.set (a := p + 1) (i := 3) 0 hp (by omega)).1, hw.live.trans hn.live, hn.fresh, ?_⟩
  intro b hb i hi hne
  exact (hn.ext.trans hw.ext) b hb i hi fun hor => hor.elim hne fun heq => hn.fresh (heq ▸ hb)

/-- No namespace can be allocated, or the function and its node in the collector's set can be as
well. -/
def FnKeeps (h sz : ℕ) (ty : Types) (s : HSt) : Prop :=
  ∀ s₁ ns, set h ty s = some (s₁, ns) → ns = 0 ∨ Room h sz s₁ (asked (objectReq 3)) ∧
    ∀ s₂ self, object h s₁ ty.functionType 3 0 0 = some (s₂, self) → ¬ NoRoom h sz s₂ 4

/-- An object to which there is no reference is not deleted: its count wraps. -/
lemma delete_uncounted {loc o : ℕ} {ty : Types} (ho : o ≠ 0) (hzero : s.mem (refcount o) = 0) :
    objectDelete h loc ty s o = some (s.set (refcount o) (wordMod - 1)) := by
  obtain ⟨n, hn⟩ : ∃ n, fuel = n + 1 := ⟨fuel - 1, by decide⟩
  rw [objectDelete, hn, NumHeap.objectDelete, if_neg ho, hzero]
  exact if_pos (by rw [mem_set, if_pos rfl]; decide)

/-- **`new_fn`**. -/
lemma newFn_iff {loc sup encl args exp : ℕ} {ty : Types} (hg : GcSet h sz s t)
    (hty : TypesAt s ty) (hnode : ∀ x ∈ typeNames ty, x.1 + 1 ∉ addrs t) :
    AllOrNothing h s (newFn h loc ty sup s encl args exp) ↔ FnKeeps h sz ty s := by
  obtain ⟨U, ho⟩ := Owns.of_sound hg.set.tree.sound
  have hset : (ty.setType, "set") ∈ typeNames ty := by simp [typeNames]
  have hfun : (ty.functionType, "fun") ∈ typeNames ty := by simp [typeNames]
  have hfunl : ty.functionType + 1 ∈ s.live := (hty.named _ hfun).live
  rw [newFn]
  rcases set_owns ho (hty.named _ hset).live with
    ⟨h1, hno⟩ | ⟨s₁, ns, j, h1, hns, ho₁, hlive₁, hfresh₁, hx₁⟩
  · -- the function, which is longer, is refused as well
    refine iff_of_true (fun s' h2 => ?_) fun s₁ ns h2 => ?_
    · rcases object_owns ty.functionType 3 0 ho hfunl (Nat.zero_le _) with
        ⟨h3, -⟩ | ⟨-, -, -, -, -, -, -, hroom, -⟩
      · rw [h1, Option.bind_some] at h2
        dsimp only at h2
        rw [h3, Option.bind_some] at h2
        dsimp only at h2
        rw [if_pos rfl] at h2
        obtain ⟨rfl, -⟩ := Prod.mk.inj (Option.some.inj h2)
        exact .refl h s
      · exact absurd (hroom.mono (by decide)) hno
    · exact .inl (Prod.mk.inj (Option.some.inj (h2.symm.trans h1))).2
  have hkeeps : FnKeeps h sz ty s ↔ Room h sz s₁ (asked (objectReq 3)) ∧
      ∀ s₂ self, object h s₁ ty.functionType 3 0 0 = some (s₂, self) → ¬ NoRoom h sz s₂ 4 := by
    refine ⟨fun hk => (hk s₁ ns h1).resolve_left hns, fun hk s₂ a h2 => .inr ?_⟩
    obtain ⟨rfl, rfl⟩ := Prod.mk.inj (Option.some.inj (h2.symm.trans h1))
    exact hk
  rw [hkeeps, h1, Option.bind_some]
  dsimp only
  have hfunl₁ : ty.functionType + 1 ∈ s₁.live := by simp [hlive₁, hfunl]
  rcases object_owns ty.functionType 3 0 ho₁ hfunl₁ (Nat.zero_le _) with
    ⟨h2, hno, -⟩ | ⟨s₃, s₂, self, k, -, hself, h2, hroom, ho₂, hn₂, -⟩
  · -- the namespace is not given back
    refine iff_of_false (fun hall => ?_) fun hk => hno hk.1
    rw [h2, Option.bind_some] at hall
    exact ho.not_restored ho₁ (by simp) (hall s₁ (if_pos rfl))
  have hnode₂ : (∀ s₃ a, object h s₁ ty.functionType 3 0 0 = some (s₃, a) →
      ¬ NoRoom h sz s₃ 4) ↔ ¬ NoRoom h sz s₂ 4 := by
    refine ⟨fun hk => hk s₂ self h2, fun hk s₃ a h3 => ?_⟩
    obtain ⟨rfl, -⟩ := Prod.mk.inj (Option.some.inj (h3.symm.trans h2))
    exact hk
  rw [and_iff_right hroom, hnode₂, h2, Option.bind_some]
  dsimp only
  rw [if_neg hself, gcAdd, gcSet_owns ho₂]
  have hset₂ : OrdSet addrKey h sz (s.mem.ptr (gcSet h)) s₂ t := by
    refine hg.set.ext ho₂.sound (hx₁.trans hn₂.ext) ?_
    rintro a i (⟨rfl, rfl⟩ | ⟨rfl, rfl⟩)
    · exact ⟨rfl, hnode _ hset⟩
    · exact ⟨rfl, hnode _ hfun⟩
  have hnew : ∀ e ∈ t.toList, e.2 / 8 ≠ self + 1 := fun e he heq =>
    hn₂.fresh (by rw [hlive₁, ← heq]; exact List.mem_cons_of_mem _ (hg.live e he))
  rcases gcInsert hset₂ hnew with ⟨hf, h3⟩ | ⟨hf, s₃, h3⟩
  · refine iff_of_false (fun hall => ?_) (not_not.mpr hf)
    have hs : self + 1 ∈ s₂.live := by simp [hn₂.live]
    have hmin := (ho₂.sound.bounds hs).2.2.1
    rw [h3, Option.map_some, Option.bind_some] at hall
    dsimp only at hall
    rw [if_neg one_ne_zero, if_pos one_ne_zero, delete_uncounted hself hn₂.refcount] at hall
    refine ho.not_restored (ho₂.set (a := self + 1) (i := 0) (wordMod - 1) hs (by omega)).1 ?_
      (hall _ rfl)
    simp only [List.length_cons]
    omega
  · refine iff_of_true (fun s' h4 => ?_) hf
    rw [h3, Option.map_some, Option.bind_some] at h4
    dsimp only at h4
    rw [if_neg (not_not.mpr rfl)] at h4
    by_cases hnull : ns = 0 ∨ args = 0 ∨ exp = 0
    · rw [if_pos hnull] at h4
      exact absurd h4 (Option.some_ne_none _).symm
    · rw [if_neg hnull] at h4
      obtain ⟨s₄, -, h5⟩ := Option.map_eq_some_iff.mp h4
      exact absurd (Prod.mk.inj h5).2 hself

/-! ### All of them -/

/-- **Constructors** that return null have restored the heap exactly if what they have allocated
before the refusal can be given back: but for blocks that `free` does not find these are the first
buffer of a FIFO, the namespace of a function, and the function itself. -/
theorem constructors_iff {loc : ℕ} {ty : Types} (hg : GcSet h sz s t) (hty : TypesAt s ty)
    (hnode : ∀ x ∈ typeNames ty, x.1 + 1 ∉ addrs t) :
    (∀ k, AllOrNothing h s (objArray h loc ty s k) ↔ ArrayKeeps h sz s k) ∧
    (∀ size item, AllOrNothing h s (ringBuf h s size item) ↔ RingKeeps h sz s size item) ∧
    (∀ primary secondary item, AllOrNothing h s (concurrentFifo h s primary secondary item) ↔
      FifoKeeps h sz s primary secondary item) ∧
    (∀ n < wordMod, AllOrNothing h s (gcAlloc h s n) ↔ GcKeeps h sz s n) ∧
    ∀ sup encl args exp, AllOrNothing h s (newFn h loc ty sup s encl args exp) ↔
      FnKeeps h sz ty s :=
  have hs := hg.set.tree.sound
  ⟨fun k => objArray_iff k hs hty, fun size item => ringBuf_iff size item hs,
    fun primary secondary item => concurrentFifo_iff primary secondary item hs,
    fun _ hn => gcAlloc_iff hg hn, fun _ _ _ _ => newFn_iff hg hty hnode⟩

/-- A heap with the types, an empty set of the collector and room for more. -/
lemma exists_types : ∃ s ty c, GcSet 1 (2 ^ 17) s .nil ∧ TypesAt s ty ∧
    Fresh 1 (2 ^ 17) c s (2 ^ 17 - 145 - 72 * 9) := by
  obtain ⟨s₀, c, os, hf, hlen, hnd, hos⟩ := exists_objects 9 (by decide)
  match os, hlen with
  | [g, o₁, o₂, o₃, o₄, o₅, o₆, o₇, o₈], _ =>
    set os := [g, o₁, o₂, o₃, o₄, o₅, o₆, o₇, o₈] with hos_eq
    set ty : Types := ⟨o₁, o₂, o₃, o₄, o₅, o₆, o₇, o₈⟩
    set ns := [0] :: (typeNames ty).map fun x => chars x.2 with hns
    have hos' : ∀ o ∈ os, o + 1 ∈ (s₀.setPtr (gcSet 1) g).live ∧
        64 ≤ getMemSz (s₀.setPtr (gcSet 1) g).mem (o + 1) := fun o ho => by
      obtain ⟨h1, h2⟩ := hos o ho
      obtain ⟨-, h3, h4, -⟩ := hf.memSz h1
      obtain ⟨-, h5, -⟩ := (hf.setGc g).memSz (a := o + 1) h1
      have h6 : (s₀.setPtr (gcSet 1) g).mem (o + 1 - 1) = s₀.mem (o + 1 - 1) :=
        setPtr_ne _ _ (by unfold gcSet; omega)
      exact ⟨h1, by omega⟩
    have hlens : ∀ n ∈ ns, n.length ≤ 61 := by simp [ns, typeNames, chars]
    obtain ⟨s, hf', w, h1, h2⟩ := fill_all ns (hf.setGc g) hnd hos' rfl hlens
    have hgc : s.mem.ptr (gcSet 1) = g := ptr_of_eq hf'.1
    have hnil := h1 (g, [0]) (by simp [os, ns])
    have hset : TreeAt 1 (2 ^ 17) g s .nil :=
      ⟨w.sound, ⟨hnil.live, hnil.fits⟩,
        ⟨⟨trivial, (List.cons.inj hnil.words).1, sep_nil _⟩, trivial⟩, by simp, by simp⟩
    have hzip : ∀ x ∈ typeNames ty, (x.1, chars x.2) ∈ os.zip ns := by
      simp [typeNames, os, ns, ty]
    refine ⟨s, ty, 8 * g, ⟨hgc.symm ▸ ⟨hset, by simp, .nil, by simp⟩, by simp⟩,
      ⟨fun x hx => h1 _ (hzip x hx), fun x hx => ?_⟩, ?_⟩
    · rw [h2 _ (List.of_mem_zip (hzip x hx)).1]
      decide
    · exact hf'

/-- The second buffer of a FIFO is refused for its size. -/
lemma not_fifoKeeps {c : ℕ} (hf : Fresh 1 (2 ^ 17) c s (2 ^ 17 - 145 - 72 * 9)) :
    ¬ FifoKeeps 1 (2 ^ 17) s 4 1 1 := by
  rcases hf.alloc (n := fifoSz) (by decide) with ⟨-, h1⟩ | ⟨s₁, cf, h1, h2, hf₁, -⟩
  · exact absurd h1 (by decide)
  rcases hf₁.alloc (n := ringBufSz) (by decide) with ⟨-, h3⟩ | ⟨s₂, rb, h3, h4, hf₂, -⟩
  · exact absurd h3 (by decide)
  have hroom : Room 1 (2 ^ 17) s₂ (need 10) :=
    room_of_not_noRoom (fresh_sound hf₂) (not_noRoom hf₂ (by decide) (by decide))
  have hring : RingRoom 1 (2 ^ 17) s₁ 4 (wadd 1 1) := ⟨by decide, s₂, rb, h3, h4, hroom⟩
  obtain ⟨U, ho⟩ := Owns.of_sound (fresh_sound hf₁)
  rcases ringBuf_owns 4 (wadd 1 1) ho with ⟨hno, -⟩ | ⟨-, s₃, p, k, q, l, h5, -⟩
  · exact absurd hring hno
  intro hk
  rcases (hk s₁ cf h1).resolve_left h2 with ⟨hno, -⟩ | ⟨-, hsecond⟩
  · exact hno hring
  · exact absurd (hsecond s₃ _ h5).1 (by decide)

/-- A ring buffer that is larger than the heap is refused, and nothing of it is left: its block is
given back. -/
theorem constructors_refused : ∃ s s' s₁ rb, s.alloc 1 ringBufSz = some (s₁, rb) ∧ rb ≠ 0 ∧
    ringBuf 1 s (2 ^ 17) 1 = some (s', 0) ∧ Restored 1 s s' := by
  obtain ⟨s, ty, c, hg, hty, hf⟩ := exists_types
  obtain ⟨U, ho⟩ := Owns.of_sound hg.set.tree.sound
  rcases hf.alloc (n := ringBufSz) (by decide) with ⟨-, h1⟩ | ⟨s₁, rb, h1, h2, hf₁, hlive, -⟩
  · exact absurd h1 (by decide)
  have hrb : rb ∈ s₁.live := by simp [hlive]
  have hkeeps : RingKeeps 1 (2 ^ 17) s (2 ^ 17) 1 := .inr fun s₂ rb' h3 => by
    obtain ⟨rfl, rfl⟩ := Prod.mk.inj (Option.some.inj (h1.symm.trans h3))
    have hb := (fresh_sound hf₁).bounds hrb
    exact .inr (.inl (lt_freeBound (by decide) (by omega)))
  have hlarge : ¬ RingRoom 1 (2 ^ 17) s (2 ^ 17) 1 := fun ⟨_, s₂, rb', h3, _, hroom⟩ => by
    obtain ⟨rfl, rfl⟩ := Prod.mk.inj (Option.some.inj (h1.symm.trans h3))
    have hle := hroom.block_le hrb
    have hasked : asked (wadd (wmul (2 ^ 17) 1) arrayBsz) = 2 ^ 17 + arrayBsz + 1 := by decide
    omega
  rcases ringBuf_owns (2 ^ 17) 1 ho with ⟨-, s', V, h3, -⟩ | ⟨hroom, -⟩
  · have hiff : (∀ k, AllOrNothing 1 s (objArray 1 (2 ^ 18) ty s k) ↔ ArrayKeeps 1 (2 ^ 17) s k) ∧
        _ := constructors_iff hg hty (by simp)
    exact ⟨s, s', s₁, rb, h1, h2, h3, (hiff.2.1 (2 ^ 17) 1).mpr hkeeps s' h3⟩
  · exact absurd hroom hlarge

/-- A FIFO with a second buffer of one item is refused, and its first buffer is lost. -/
theorem fifo_not_restored : ¬ ∀ (h sz : ℕ) (s : HSt) (t : T) (ty : Types)
    (primary secondary item : ℕ), GcSet h sz s t → TypesAt s ty →
      (∀ x ∈ typeNames ty, x.1 + 1 ∉ addrs t) →
      AllOrNothing h s (concurrentFifo h s primary secondary item) := by
  intro hall
  obtain ⟨s, ty, c, hg, hty, hf⟩ := exists_types
  exact not_fifoKeeps hf ((concurrentFifo_iff 4 1 1 hg.set.tree.sound).mp
    (hall _ _ s _ ty 4 1 1 hg hty (by simp)))

end LispMachine.Restore
