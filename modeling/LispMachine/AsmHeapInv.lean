import LispMachine.AsmHeap
import LispMachine.AsmMarks
import LispMachine.NumObj

/-!
What the assembler does to the heap.

It owns the blocks of its arrays, and no others. A request for memory that fails leaves an array as
it is; one that grows has its old words.
-/

namespace LispMachine.AsmHeapInv

open LispMachine.Memory LispMachine.Alloc LispMachine.Heap LispMachine.HeapFrame
open LispMachine.Owned (Owns Took freed Restored Gained)
open LispMachine.HeapRuns LispMachine.HeapInv LispMachine.NumObj LispMachine.AsmHeap
open LispMachine.AsmMarks LispMachine.AsmCorrect
open LispMachine.Asm (LblInfo Comp lblStreq)

variable {h sz base : ℕ} {s₀ : HSt} {s s' : ASt} {b b' c k x : ℕ} {ws item code bs : List ℕ}

/-! ### Requests -/

/-- The addresses that `free` ignores. -/
def ignored (h sz : ℕ) (as : List ℕ) : List ℕ := as.filter (freeBound h sz ≤ ·)

lemma freed_perm (P as : List ℕ) (b : ℕ) :
    (freed h sz (b :: (P ++ ignored h sz as)) b).Perm (P ++ ignored h sz (b :: as)) := by
  unfold freed ignored
  by_cases hlt : b < freeBound h sz
  · rw [if_pos hlt, List.erase_cons_head, List.filter_cons_of_neg (by simpa using hlt)]
  · rw [if_neg hlt, List.filter_cons_of_pos (by simpa using hlt)]
    exact List.perm_middle.symm

/-- Between the two states the used blocks at `bs` have become those at `bs'`, and those that are
ignored are used as well. -/
def Trades (h sz : ℕ) (s s' : ASt) (bs bs' : List ℕ) : Prop :=
  ∀ s₀ U P, Took h sz s₀ U s.heap (bs ++ (P ++ ignored h sz s.freed)) →
    Took h sz s₀ U s'.heap (bs' ++ (P ++ ignored h sz s'.freed))

lemma Trades.trans {s s' s'' : ASt} {bs bs' bs'' : List ℕ} (h₁ : Trades h sz s s' bs bs')
    (h₂ : Trades h sz s' s'' bs' bs'') : Trades h sz s s'' bs bs'' :=
  fun s₀ U P ht => h₂ s₀ U P (h₁ s₀ U P ht)

lemma Trades.wrote {s s' s'' : ASt} {W : ℕ → ℕ → Prop} {bs bs' : List ℕ}
    (h₁ : Trades h sz s s' bs bs') (hw : Wrote h sz W s'.heap s''.heap)
    (hfreed : s''.freed = s'.freed) : Trades h sz s s'' bs bs' :=
  fun s₀ U P ht => hfreed ▸ (h₁ s₀ U P ht).wrote hw

lemma alloc_total {n : ℕ} (hs : Sound h sz s.heap) (hn : n + umdsSz < wordMod) :
    ∃ s' a, s.alloc h n = some (s', a) ∧ (a = 0 → s'.heap = s.heap ∧ s'.freed = s.freed) ∧
      (a ≠ 0 → Sound h sz s'.heap ∧ Ext (fun _ _ => False) s.heap s'.heap ∧
        s'.heap.live = a :: s.heap.live ∧ n ≤ getMemSz s'.heap.mem a ∧
        Trades h sz s s' [] [a]) := by
  rw [ASt.alloc]
  split_ifs
  · exact ⟨_, 0, rfl, fun _ => ⟨rfl, rfl⟩, fun h0 => absurd rfl h0⟩
  · obtain ⟨lost, t, U, hi⟩ := hs
    obtain ⟨s₁, a, h1, h2⟩ := alloc_meets hi hn
    refine ⟨⟨s₁, _, _⟩, a, by rw [h1]; rfl, fun h0 => ⟨h2.unchanged h0, rfl⟩, fun h0 => ?_⟩
    obtain ⟨h3, h4, h5, h6⟩ := alloc_ext ⟨lost, t, U, hi⟩ hn h1 h0
    exact ⟨h3, h4, h5, h6, fun _ _ _ ht => ht.alloc hn h1 h0⟩

lemma realloc_total {a n : ℕ} (hs : Sound h sz s.heap) (ha : a ∈ s.heap.live)
    (hn : n + umdsSz < wordMod) : ∃ s' a', s.realloc h a n = some (s', a') ∧
    (a' = 0 → s'.heap = s.heap ∧ s'.freed = s.freed) ∧
    (a' ≠ 0 → Sound h sz s'.heap ∧ Ext (fun c _ => c = a) s.heap s'.heap ∧
      s'.heap.live = a' :: s.heap.live.erase a ∧ n ≤ getMemSz s'.heap.mem a' ∧
      (∀ i < min (getMemSz s.heap.mem a) n, s'.heap.mem (a' + i) = s.heap.mem (a + i)) ∧
      Trades h sz s s' [a] [a']) := by
  rw [ASt.realloc]
  split_ifs
  · exact ⟨_, 0, rfl, fun _ => ⟨rfl, rfl⟩, fun h0 => absurd rfl h0⟩
  · obtain ⟨lost, t, U, hi⟩ := hs
    obtain ⟨s₁, a', h1, h2⟩ := realloc_meets hi ha hn
    rw [h1, Option.map_some]
    by_cases h0 : a' = 0
    · exact ⟨_, a', rfl, fun _ => ⟨h2.unchanged h0, if_pos h0⟩, fun hne => absurd h0 hne⟩
    · obtain ⟨h3, h4, h5, h6⟩ := realloc_ext ⟨lost, t, U, hi⟩ ha hn h1 h0
      dsimp only
      rw [if_neg h0]
      exact ⟨_, a', rfl, fun hz => absurd hz h0, fun _ => ⟨h3, h4, h5, h6, h2.copied h0,
        fun s₀ V P ht => (ht.realloc List.mem_cons_self ha hn h1 h0).perm
          ((freed_perm P s.freed a).cons a')⟩⟩

/-! ### Arrays -/

/-- In the block at `b` there is an array of items of `k` words, which are `ws` together. -/
structure ArrayAt (s : HSt) (b k : ℕ) (ws : List ℕ) : Prop where
  live : b ∈ s.live
  used : s.mem b = ws.length
  item : s.mem (b + 1) = k
  fits : ws.length + 2 ≤ getMemSz s.mem b
  words : readAll s.mem (b + 2) ws.length = ws

@[simp] lemma memAddr_add (b : ℕ) : memAddr (b + 2) = b := rfl
@[simp] lemma usedSz_add (b : ℕ) : usedSz (b + 2) = b := rfl
@[simp] lemma itemSz_add (b : ℕ) : itemSz (b + 2) = b + 1 := rfl

lemma ArrayAt.ext {s s' : HSt} (ha : ArrayAt s b k ws) (hx : Ext (fun x _ => x = c) s s')
    (hne : b ≠ c) : ArrayAt s' b k ws := by
  have hfits := ha.fits
  have hkeep : ∀ i < ws.length + 2, Survives s s' b i := fun i hi =>
    hx b ha.live i (by omega) hne
  refine ⟨(hkeep 0 (by omega)).live, (hkeep 0 (by omega)).word.trans ha.used,
    (hkeep 1 (by omega)).word.trans ha.item, by rw [(hkeep 0 (by omega)).memSz]; exact hfits, ?_⟩
  refine (readAll_congr fun i hi => ?_).trans ha.words
  have := (hkeep (i + 2) (by omega)).word
  rwa [show b + (i + 2) = b + 2 + i by omega] at this

lemma copyItem_eq {dst n : ℕ} (hn : n ≤ item.length) :
    copyItem dst item n s = ⟨putAll s.heap dst (item.take n), s.refused, s.freed⟩ := by
  induction n with
  | zero => rfl
  | succ n ih =>
    rw [copyItem, ih (by omega), List.take_add_one, putAll_append,
      List.length_take_of_le (by omega), List.getElem?_eq_getElem (by omega),
      List.getD_eq_getElem _ _ (by omega)]
    rfl

/-- **`array`** -/
lemma array_spec {size : ℕ} (hs : Sound h sz s.heap) (hn : size * k + 2 + umdsSz < wordMod) :
    ∃ s' a, array h s size k = some (s', a) ∧
      ((a = 0 ∧ s'.heap = s.heap ∧ s'.freed = s.freed) ∨
      ∃ b, a = b + 2 ∧ Sound h sz s'.heap ∧ s'.heap.live = b :: s.heap.live ∧
        Ext (fun _ _ => False) s.heap s'.heap ∧ ArrayAt s'.heap b k [] ∧
        Trades h sz s s' [] [b]) := by
  obtain ⟨s₁, b, h1, h2, h3⟩ := alloc_total hs hn
  rw [array, arrayBsz, h1, Option.map_some]
  dsimp only
  by_cases hb : b = 0
  · rw [if_pos hb]
    exact ⟨s₁, 0, rfl, .inl ⟨rfl, h2 hb⟩⟩
  · obtain ⟨hs₁, hx, hlive, hroom, htrades⟩ := h3 hb
    rw [if_neg hb]
    have hmem : b ∈ s₁.heap.live := by rw [hlive]; exact List.mem_cons_self
    have hfresh : b ∉ s.heap.live := by
      have := hs₁.nodup
      rw [hlive] at this
      exact (List.nodup_cons.mp this).1
    have hw : Wrote h sz (fun x _ => x = b) s₁.heap ((s₁.heap.set b 0).set (b + 1) k) :=
      ((Wrote.refl hs₁).set (i := 0) 0 hmem (by omega) rfl).set (i := 1) k hmem (by omega) rfl
    refine ⟨_, b + 2, rfl, .inr ⟨b, rfl, hw.sound, hw.live.trans hlive, fun x hx' i hi _ => ?_, ?_,
      htrades.wrote hw rfl⟩⟩
    · refine (hx.trans hw.ext) x hx' i hi ?_
      rintro (hf | rfl)
      · exact hf
      · exact hfresh hx'
    · refine ⟨hw.live.symm ▸ hmem, ?_, ?_, ?_, rfl⟩
      · change ((s₁.heap.set b 0).set (b + 1) k).mem b = 0
        rw [mem_set, if_neg (by omega), mem_set, if_pos rfl]
      · change ((s₁.heap.set b 0).set (b + 1) k).mem (b + 1) = k
        rw [mem_set, if_pos rfl]
      · rw [List.length_nil]
        exact (by omega : 0 + 2 ≤ getMemSz s₁.heap.mem b).trans_eq (hw.memSz b hmem).symm

/-- An item is written behind the others. -/
lemma ArrayAt.write {s : HSt} (hs : Sound h sz s) (ha : ArrayAt s b k ws)
    (hroom : ws.length + item.length + 2 ≤ getMemSz s.mem b) :
    Wrote h sz (fun x _ => x = b) s ((putAll s (b + 2 + ws.length) item).set b
      (ws.length + item.length)) ∧
    ArrayAt ((putAll s (b + 2 + ws.length) item).set b (ws.length + item.length)) b k
      (ws ++ item) := by
  have hw₁ : Wrote h sz (fun x _ => x = b) s (putAll s (b + (2 + ws.length)) item) :=
    Wrote.putAll (.refl hs) ha.live (by omega) fun _ _ _ => rfl
  rw [← Nat.add_assoc] at hw₁
  have hw := hw₁.set (i := 0) (ws.length + item.length) ha.live (by omega) rfl
  have hmem : ∀ y, y ≠ b → ((putAll s (b + 2 + ws.length) item).set b
      (ws.length + item.length)).mem y = (putAll s (b + 2 + ws.length) item).mem y :=
    fun y hy => set_ne _ _ hy
  refine ⟨hw, hw.live.symm ▸ ha.live, ?_, ?_, ?_, ?_⟩
  · rw [mem_set, if_pos rfl, List.length_append]
  · rw [hmem _ (by omega), putAll_apply, if_neg (by omega), ha.item]
  · rw [List.length_append]
    exact hroom.trans_eq (hw.memSz b ha.live).symm
  · rw [List.length_append, readAll_add]
    refine congrArg₂ _ ?_ ?_
    · refine (readAll_congr fun i hi => ?_).trans ha.words
      rw [hmem _ (by omega), putAll_apply, if_neg (by omega)]
    · rw [readAll_congr (m := (putAll s (b + 2 + ws.length) item).mem) fun i hi =>
        hmem _ (by omega), readAll_putAll]

/-- What `array_append` writes once there is room. -/
lemma append_writes (hs : Sound h sz s.heap) (ha : ArrayAt s.heap b k ws)
    (hroom : ws.length + item.length + 2 ≤ getMemSz s.heap.mem b) :
    ((copyItem (b + 2 + ws.length) item item.length s).set b
      (wadd ((copyItem (b + 2 + ws.length) item item.length s).heap.mem b) item.length)).heap =
    (putAll s.heap (b + 2 + ws.length) item).set b (ws.length + item.length) := by
  have hbounds := hs.bounds ha.live
  have hsp : addrSpace < wordMod := by decide
  rw [copyItem_eq le_rfl, List.take_length]
  change (putAll s.heap (b + 2 + ws.length) item).set b (wadd
    ((putAll s.heap (b + 2 + ws.length) item).mem b) item.length) = _
  rw [putAll_apply, if_neg (by omega), ha.used, wadd_eq (by omega)]

lemma freed_copied (s : ASt) (dst : ℕ) (item : List ℕ) (x v : ℕ) :
    ((copyItem dst item item.length s).set x v).freed = s.freed := by
  rw [copyItem_eq le_rfl]
  rfl

/-- The words of an array, at the place where a new block has them. -/
lemma ArrayAt.moved {s s' : HSt} {a : ℕ} (ha : ArrayAt s b k ws) (hlive : a ∈ s'.live)
    (hroom : ws.length + 2 ≤ getMemSz s'.mem a)
    (hcopy : ∀ i < ws.length + 2, s'.mem (a + i) = s.mem (b + i)) : ArrayAt s' a k ws := by
  refine ⟨hlive, (hcopy 0 (by omega)).trans ha.used, (hcopy 1 (by omega)).trans ha.item, hroom, ?_⟩
  refine (readAll_moved fun i hi => ?_).trans ha.words
  have := hcopy (2 + i) (by omega)
  rwa [← Nat.add_assoc, ← Nat.add_assoc] at this

/-- A bigger block for an array. -/
lemma grown_lt {u i M : ℕ} (hfull : M - 2 < u + i) (hfits : u + 2 ≤ M) (hM : M < addrSpace)
    (hk : i ≤ 2) : M + (M - 2) / 2 + i + umdsSz < wordMod ∧ u + 2 ≤ min M (M + (M - 2) / 2 + i) ∧
      u + i + 2 ≤ M + (M - 2) / 2 + i := by
  have hsp : 4 * addrSpace < wordMod := by decide
  have hu : umdsSz = 1 := rfl
  omega

/-- **`array_append`** -/
lemma arrayAppend_spec (hs : Sound h sz s.heap) (ha : ArrayAt s.heap b item.length ws)
    (hk : item.length ≤ 2) :
    ∃ s' a, arrayAppend h s (b + 2) item = some (s', a) ∧
      ((a = 0 ∧ s'.heap = s.heap ∧ s'.freed = s.freed) ∨
      ∃ b', a = b' + 2 ∧ Sound h sz s'.heap ∧ s'.heap.live.Perm (b' :: s.heap.live.erase b) ∧
        Ext (fun c _ => c = b) s.heap s'.heap ∧
        ArrayAt s'.heap b' item.length (ws ++ item) ∧ Trades h sz s s' [b] [b']) := by
  have hbounds := hs.bounds ha.live
  rw [arrayAppend]
  simp only [memAddr_add, usedSz_add, itemSz_add, ha.used, ha.item, arrayBsz]
  by_cases hfull : getMemSz s.heap.mem b - 2 < ws.length + item.length
  · rw [if_pos hfull]
    obtain ⟨hn, hold, hnew⟩ := grown_lt hfull ha.fits (by omega) hk
    obtain ⟨s₁, a, h1, h2, h3⟩ := realloc_total hs ha.live hn
    rw [h1, Option.map_some, Option.map_some]
    dsimp only
    by_cases h0 : a = 0
    · rw [if_pos h0]
      exact ⟨s₁, 0, rfl, .inl ⟨rfl, h2 h0⟩⟩
    · obtain ⟨hs₁, hx, hlive, hroom, hcopy, htrades⟩ := h3 h0
      have ha₁ : ArrayAt s₁.heap a item.length ws :=
        ha.moved (hlive ▸ List.mem_cons_self) ((hold.trans (min_le_right _ _)).trans hroom)
          fun i hi => hcopy i (hi.trans_le hold)
      obtain ⟨hw, ha₂⟩ := ha₁.write hs₁ (hnew.trans hroom)
      rw [if_neg h0, if_neg (Nat.succ_ne_zero _)]
      refine ⟨_, a + 2, rfl, .inr ⟨a, rfl, ?_⟩⟩
      have heap_eq := append_writes hs₁ ha₁ (hnew.trans hroom)
      have htrades' := htrades.wrote (heap_eq ▸ hw) (freed_copied s₁ (a + 2 + ws.length) item _ _)
      rw [usedSz_add, heap_eq]
      refine ⟨hw.sound, (hw.live.trans hlive).symm ▸ List.Perm.refl _, fun x hx' i hi hne => ?_,
        ha₂, htrades'⟩
      refine (hx.trans hw.ext) x hx' i hi ?_
      rintro (hf | rfl)
      · exact hne hf
      · have hnd := hs₁.nodup
        rw [hlive, List.nodup_cons] at hnd
        exact hnd.1 ((List.mem_erase_of_ne hne).mpr hx')
  · rw [if_neg hfull, Option.map_some]
    dsimp only
    have hroom : ws.length + item.length + 2 ≤ getMemSz s.heap.mem b := by omega
    obtain ⟨hw, ha₂⟩ := ha.write hs hroom
    rw [if_neg (Nat.succ_ne_zero _)]
    refine ⟨_, b + 2, rfl, .inr ⟨b, rfl, ?_⟩⟩
    have heap_eq := append_writes hs ha hroom
    have htrades : Trades h sz s s [b] [b] := fun _ _ _ => id
    have htrades' := htrades.wrote (heap_eq ▸ hw) (freed_copied s (b + 2 + ws.length) item _ _)
    rw [usedSz_add, heap_eq]
    refine ⟨hw.sound, ?_, hw.ext, ha₂, htrades'⟩
    rw [hw.live]
    exact List.perm_cons_erase ha.live

/-! ### Owned blocks -/

/-- The heap has the blocks it had in the state `s₀`, as they were, and those of `bs`. Besides,
those blocks are used that were given back in vain. -/
structure Owned (h sz : ℕ) (s₀ : HSt) (s : ASt) (bs : List ℕ) : Prop where
  sound : Sound h sz s.heap
  live : s.heap.live.Perm (bs ++ s₀.live)
  ext : Ext (fun _ _ => False) s₀ s.heap
  took : ∀ U, Owns h sz s₀ s₀ U → Took h sz s₀ U s.heap (bs ++ ignored h sz s.freed)

namespace Owned

lemma start {t : HSt} (refused : List Bool) (hs : Sound h sz t) :
    Owned h sz t ⟨t, refused, []⟩ [] := ⟨hs, .refl _, .refl _, fun _ ho => .refl ho⟩

lemma perm (ho : Owned h sz s₀ s bs) {bs' : List ℕ} (hp : bs.Perm bs') : Owned h sz s₀ s bs' :=
  ⟨ho.sound, ho.live.trans (hp.append_right _), ho.ext,
    fun U hU => (ho.took U hU).perm (hp.append_right _)⟩

lemma nodup (ho : Owned h sz s₀ s bs) : (bs ++ s₀.live).Nodup :=
  (ho.live.nodup_iff).mp ho.sound.nodup

lemma mem (ho : Owned h sz s₀ s bs) (hb : b ∈ bs) : b ∈ s.heap.live :=
  ho.live.symm.subset (List.mem_append_left _ hb)

/-- A request was refused. -/
lemma same (ho : Owned h sz s₀ s bs) (hheap : s'.heap = s.heap) (hfreed : s'.freed = s.freed) :
    Owned h sz s₀ s' bs := by
  obtain ⟨h1, h2, h3, h4⟩ := ho
  exact ⟨hheap ▸ h1, hheap ▸ h2, hheap ▸ h3, fun U hU => by rw [hheap, hfreed]; exact h4 U hU⟩

/-- What is done to an owned block leaves the old ones. -/
lemma ext_of {t : HSt} (ho : Owned h sz s₀ s bs) (hb : b ∈ bs)
    (hx : Ext (fun c _ => c = b) s.heap t) : Ext (fun _ _ => False) s₀ t := by
  refine fun x hx' i hi _ => (ho.ext.trans hx) x hx' i hi ?_
  rintro (hf | rfl)
  · exact hf
  · exact (List.disjoint_of_nodup_append ho.nodup) hb hx'

/-- A block more. -/
lemma cons (ho : Owned h sz s₀ s bs) (hs : Sound h sz s'.heap)
    (hlive : s'.heap.live = b :: s.heap.live) (hx : Ext (fun _ _ => False) s.heap s'.heap)
    (ht : Trades h sz s s' [] [b]) : Owned h sz s₀ s' (b :: bs) :=
  ⟨hs, hlive ▸ (ho.live.cons b), (ho.ext.trans hx).mono fun _ _ h => h.elim id id,
    fun U hU => ht s₀ U bs (ho.took U hU)⟩

/-- A block for another. -/
lemma exchange (ho : Owned h sz s₀ s (b :: bs)) (hs : Sound h sz s'.heap)
    (hlive : s'.heap.live.Perm (b' :: s.heap.live.erase b))
    (hx : Ext (fun c _ => c = b) s.heap s'.heap) (ht : Trades h sz s s' [b] [b']) :
    Owned h sz s₀ s' (b' :: bs) := by
  refine ⟨hs, hlive.trans (.cons b' ?_), ho.ext_of List.mem_cons_self hx,
    fun U hU => ht s₀ U bs (ho.took U hU)⟩
  have := ho.live.erase b
  rwa [List.cons_append, List.erase_cons_head] at this

/-- Writes to the words of a block. -/
lemma wrote (ho : Owned h sz s₀ s (b :: bs))
    (hw : Wrote h sz (fun c _ => c = b) s.heap s'.heap) (hfreed : s'.freed = s.freed) :
    Owned h sz s₀ s' (b :: bs) :=
  ⟨hw.sound, hw.live.symm ▸ ho.live, ho.ext_of List.mem_cons_self hw.ext,
    fun U hU => hfreed ▸ (ho.took U hU).wrote hw⟩

lemma ne (ho : Owned h sz s₀ s (b :: bs)) (hc : c ∈ bs) : c ≠ b := by
  rintro rfl
  exact (List.nodup_cons.mp ho.nodup).1 (List.mem_append_left _ hc)

end Owned

/-- The block of an array is freed. -/
lemma Owned.arrayDelete (ho : Owned h sz s₀ s (b :: bs)) :
    ∃ s', arrayDelete h s (b + 2) = some s' ∧ Owned h sz s₀ s' bs ∧
      ∀ c ∈ bs, ∀ k ws, ArrayAt s.heap c k ws → ArrayAt s'.heap c k ws := by
  obtain ⟨t, h1, h2, h3, h4⟩ := free_ext ho.sound (ho.mem List.mem_cons_self)
  refine ⟨⟨t, s.refused, b :: s.freed⟩, by rw [AsmHeap.arrayDelete, memAddr_add, ASt.free, h1]; rfl,
    ⟨h2, ?_, ho.ext_of List.mem_cons_self h3, fun U hU => ?_⟩,
    fun c hc k ws ha => ha.ext h3 (ho.ne hc)⟩
  · have := ho.live.erase b
    rwa [List.cons_append, List.erase_cons_head, ← h4] at this
  · exact ((ho.took U hU).free List.mem_cons_self (ho.mem List.mem_cons_self) h1).perm
      (freed_perm bs s.freed b)

/-- An array is made. -/
lemma Owned.array (ho : Owned h sz s₀ s bs) (size k : ℕ)
    (hn : size * k + 2 + umdsSz < wordMod) :
    ∃ s' a, array h s size k = some (s', a) ∧ ((a = 0 ∧ Owned h sz s₀ s' bs) ∨
      ∃ b, a = b + 2 ∧ Owned h sz s₀ s' (b :: bs) ∧ ArrayAt s'.heap b k [] ∧
        ∀ c ∈ bs, ∀ k ws, ArrayAt s.heap c k ws → ArrayAt s'.heap c k ws) := by
  obtain ⟨s₁, a, h1, h2⟩ := array_spec ho.sound hn
  rcases h2 with ⟨h2, h3, h4⟩ | ⟨b, h3, h4, h5, h6, h7, h8⟩
  · exact ⟨s₁, a, h1, .inl ⟨h2, ho.same h3 h4⟩⟩
  · have hc := ho.cons h4 h5 h6 h8
    exact ⟨s₁, a, h1, .inr ⟨b, h3, hc, h7, fun c hc' k ws ha =>
      ha.ext (h6.mono fun _ _ hf => hf.elim) (hc.ne hc')⟩⟩

/-- An item is appended to an array. -/
lemma Owned.arrayAppend (ho : Owned h sz s₀ s (b :: bs))
    (ha : ArrayAt s.heap b item.length ws) (hk : item.length ≤ 2) :
    ∃ s' a, arrayAppend h s (b + 2) item = some (s', a) ∧
      ((a = 0 ∧ s'.heap = s.heap ∧ s'.freed = s.freed) ∨
      ∃ b', a = b' + 2 ∧ Owned h sz s₀ s' (b' :: bs) ∧
        ArrayAt s'.heap b' item.length (ws ++ item) ∧
        ∀ c ∈ bs, ∀ k ws, ArrayAt s.heap c k ws → ArrayAt s'.heap c k ws) := by
  obtain ⟨s₁, a, h1, h2⟩ := arrayAppend_spec ho.sound ha hk
  refine ⟨s₁, a, h1, h2.imp id ?_⟩
  rintro ⟨b', h3, h4, h5, h6, h7, h8⟩
  exact ⟨b', h3, ho.exchange h4 h5 h6 h8, h7, fun c hc k ws ha' => ha'.ext h6 (ho.ne hc)⟩

/-! ### Labels in an array -/

/-- Labels as the words of an array. -/
def items (base : ℕ) (ls : List LblInfo) : List ℕ := ls.flatMap (lblItem base)

lemma items_append (ls ls' : List LblInfo) :
    items base (ls ++ ls') = items base ls ++ items base ls' := List.flatMap_append

lemma length_items (ls : List LblInfo) : (items base ls).length = 2 * ls.length := by
  induction ls with
  | nil => rfl
  | cons l ls ih =>
    rw [items, List.flatMap_cons, List.length_append, ← items, ih, List.length_cons]
    change 2 + 2 * ls.length = _
    omega

lemma readAll_items {m : Mem} {ls : List LblInfo} {p i : ℕ} {l : LblInfo}
    (hr : readAll m p (2 * ls.length) = items base ls) (hi : ls[i]? = some l) :
    m (p + 2 * i) = charPtr base l.label ∧ lblAt m base (p + 2 * i) = l := by
  induction ls generalizing p i with
  | nil => cases hi
  | cons l' ls ih =>
    rw [List.length_cons, Nat.mul_succ, readAll_succ, readAll_succ] at hr
    obtain ⟨h1, h2⟩ := List.cons.inj hr
    obtain ⟨h2, h3⟩ := List.cons.inj h2
    cases i with
    | zero =>
      obtain rfl := Option.some.inj hi
      refine ⟨h1, ?_⟩
      rw [lblAt, Nat.mul_zero, Nat.add_zero, h1, h2, charPtr,
        Nat.mul_div_cancel_left _ (by omega), Nat.add_sub_cancel_left]
    | succ i =>
      rw [Nat.mul_succ, Nat.add_comm (2 * i), ← Nat.add_assoc]
      exact ih h3 hi

/-- **`array_find`** -/
lemma arrayFind_eq {m : Mem} {eq : ℕ → Bool} {p : LblInfo → Bool} {ls : List LblInfo} {arr ptr : ℕ}
    (hsz : m (itemSz arr) = 2) (hptr : ptr ≠ 0)
    (heq : ∀ i l, ls[i]? = some l → eq (ptr + 2 * i) = p l) :
    (arrayFind m eq arr ls.length ptr = 0 ∧ ls.find? p = none) ∨
    ∃ i l, arrayFind m eq arr ls.length ptr = ptr + 2 * i ∧ ls[i]? = some l ∧
      ls.find? p = some l := by
  induction ls generalizing ptr with
  | nil => exact .inl ⟨rfl, rfl⟩
  | cons l ls ih =>
    rw [List.length_cons, arrayFind, hsz, List.find?_cons]
    have hl : eq ptr = p l := heq 0 l rfl
    by_cases hp : p l
    · rw [if_pos (hl.trans hp), hp]
      exact .inr ⟨0, l, rfl, rfl, rfl⟩
    · rw [if_neg (by rwa [hl]), Bool.eq_false_iff.mpr hp]
      have htail : ∀ i l', ls[i]? = some l' → eq (ptr + 2 + 2 * i) = p l' := fun i l' h => by
        rw [Nat.add_assoc, Nat.add_comm 2, ← Nat.mul_succ]
        exact heq (i + 1) l' h
      rcases ih (by omega) htail with h1 | ⟨i, l', h1, h2, h3⟩
      · exact .inl h1
      · exact .inr ⟨i + 1, l', by rw [h1]; omega, h2, h3⟩

lemma ArrayAt.len {s : HSt} {ls : List LblInfo} (ha : ArrayAt s b 2 (items base ls)) :
    arrayLen s.mem (b + 2) = ls.length := by
  rw [arrayLen, usedSz_add, itemSz_add, ha.used, ha.item, length_items]
  omega

lemma ArrayAt.lbl {s : HSt} {ls : List LblInfo} {i : ℕ} {l : LblInfo}
    (ha : ArrayAt s b 2 (items base ls)) (hi : ls[i]? = some l) :
    s.mem (b + 2 + 2 * i) = charPtr base l.label ∧ lblAt s.mem base (b + 2 + 2 * i) = l :=
  readAll_items (length_items ls ▸ ha.words) hi

/-- A word of an array is written. -/
lemma ArrayAt.put {s : HSt} (hs : Sound h sz s) (ha : ArrayAt s b k ws) {i v : ℕ}
    (hi : i < ws.length) : Wrote h sz (fun c _ => c = b) s (s.set (b + 2 + i) v) ∧
      ArrayAt (s.set (b + 2 + i) v) b k (ws.set i v) ∧ s.mem (b + 2 + i) = ws.getD i 0 := by
  have hfits := ha.fits
  have hw : Wrote h sz (fun c _ => c = b) s (s.set (b + (2 + i)) v) :=
    (Wrote.refl hs).set (i := 2 + i) v ha.live (by omega) rfl
  rw [← Nat.add_assoc] at hw
  refine ⟨hw, ⟨ha.live, ?_, ?_, ?_, ?_⟩, ?_⟩
  · rw [mem_set, if_neg (by omega), ha.used, List.length_set]
  · rw [mem_set, if_neg (by omega), ha.item]
  · rw [List.length_set, hw.memSz b ha.live]
    exact hfits
  · refine List.ext_getElem (by simp) fun j h1 h2 => ?_
    rw [length_readAll, List.length_set] at h1
    rw [← List.getD_eq_getElem _ 0, getD_readAll _ (by rwa [List.length_set]), mem_set,
      List.getElem_set]
    split_ifs with h3 h4 h4
    · rfl
    · omega
    · omega
    · have := getD_readAll (x := b + 2) s.mem h1
      rw [ha.words, List.getD_eq_getElem _ _ h1] at this
      exact this.symm
  · rw [← getD_readAll (x := b + 2) s.mem hi, ha.words]

/-! ### Statements -/

/-- What a statement does to the lists. -/
def perform (c : Comp) : Stmt → Option Comp
  | .error => none
  | .data w idx => some { c with arr := c.arr ++ [w], idx := idx, prgmCtr := c.prgmCtr + 1 }
  | .label idx => some { c with
      lbls := if c.lbls.any fun l => l.label = c.idx then c.lbls
        else c.lbls ++ [⟨c.idx, c.prgmCtr⟩]
      idx := idx }
  | .instr w ref idx => some { c with
      arr := c.arr ++ [w]
      lblRefs := match ref with
        | some label => c.lblRefs ++ [⟨label, c.prgmCtr⟩]
        | none => c.lblRefs
      idx := idx
      prgmCtr := c.prgmCtr + 1 }

lemma compileStep_eq (c : Comp) :
    Asm.compileStep code c = perform c (readStmt code c.idx) := by
  rw [Asm.compileStep, readStmt]
  obtain ⟨e₁, i₁, v, h₁⟩ : ∃ e₁ i₁ v, Asm.expectHexFromStr code c.idx (wordMod - 1) = (e₁, i₁, v) :=
    ⟨_, _, _, rfl⟩
  obtain ⟨e₂, i₂, h₂⟩ : ∃ e₂ i₂, Asm.expectWhitespaceOrEnd code i₁ = (e₂, i₂) := ⟨_, _, rfl⟩
  obtain ⟨e₃, i₃, op, h₃⟩ : ∃ e₃ i₃ op, Asm.matchOpcode code c.idx = (e₃, i₃, op) :=
    ⟨_, _, _, rfl⟩
  obtain ⟨e₄, i₄, h₄⟩ : ∃ e₄ i₄, Asm.expectWhitespace code i₃ = (e₄, i₄) := ⟨_, _, rfl⟩
  simp only [h₁, h₂, h₃, h₄]
  by_cases he₁ : (e₁ || e₂) = true
  · rw [if_pos he₁, if_pos he₁]
    by_cases he₂ : (e₃ || e₄) = true
    · rw [if_pos he₂, if_pos he₂]
      rfl
    · rw [if_neg he₂, if_neg he₂, Asm.compileInstr]
      cases Asm.compileArgs code (if Asm.nArgs op ≠ 0 then Asm.nArgs op - 1 else 0) i₄
        (wshl op Asm.opcodeStart) Asm.opcodeStart <;> rfl
  · rw [if_neg he₁, if_neg he₁]
    rfl

/-! ### The loop -/

/-- The arrays of `compile` are on the heap, in three blocks of its own. -/
structure Held (h sz base : ℕ) (s₀ : HSt) (s : ASt) (b₁ b₂ b₃ : ℕ) (c : Comp) : Prop where
  owned : Owned h sz s₀ s [b₁, b₂, b₃]
  arr : ArrayAt s.heap b₁ 1 c.arr
  refs : ArrayAt s.heap b₂ 2 (items base c.lblRefs)
  lbls : ArrayAt s.heap b₃ 2 (items base c.lbls)

/-- The variables of `compile` with the arrays in these blocks. -/
def vars (b₁ b₂ b₃ : ℕ) (c : Comp) : Vars := ⟨b₁ + 2, b₂ + 2, b₃ + 2, c.prgmCtr, c.idx⟩

/-- A round that does to the arrays what is done to the lists, unless it fails. -/
def Follows (h sz base : ℕ) (s₀ : HSt) (r : Option Round) (o : Option Comp) : Prop :=
  ∃ s' b₁ b₂ b₃ c e, r = some (s', vars b₁ b₂ b₃ c, e) ∧
    Held h sz base s₀ s' b₁ b₂ b₃ c ∧ (e = false → o = some c)

variable {b₁ b₂ b₃ : ℕ} {c : Comp}

lemma Held.same (hh : Held h sz base s₀ s b₁ b₂ b₃ c) (hheap : s'.heap = s.heap)
    (hfreed : s'.freed = s.freed) : Held h sz base s₀ s' b₁ b₂ b₃ c :=
  ⟨hh.owned.same hheap hfreed, hheap ▸ hh.arr, hheap ▸ hh.refs, hheap ▸ hh.lbls⟩

/-- A value is appended, or the variables stay. -/
lemma Owned.append (ho : Owned h sz s₀ s (b :: bs)) (ha : ArrayAt s.heap b item.length ws)
    (hk : item.length ≤ 2) (v : Vars) (store : ℕ → Vars) :
    ∃ s', (append h s v (b + 2) item store = some (s', v, true) ∧ s'.heap = s.heap ∧
        s'.freed = s.freed) ∨
      ∃ b', append h s v (b + 2) item store = some (s', store (b' + 2), false) ∧
        Owned h sz s₀ s' (b' :: bs) ∧ ArrayAt s'.heap b' item.length (ws ++ item) ∧
        ∀ c ∈ bs, ∀ k ws, ArrayAt s.heap c k ws → ArrayAt s'.heap c k ws := by
  obtain ⟨s', a, h1, h2⟩ := ho.arrayAppend ha hk
  refine ⟨s', ?_⟩
  rw [AsmHeap.append, h1, Option.map_some]
  rcases h2 with ⟨rfl, h2⟩ | ⟨b', rfl, h2, h3, h4⟩
  · exact .inl ⟨rfl, h2⟩
  · exact .inr ⟨b', rfl, h2, h3, h4⟩

lemma Held.append_arr (hh : Held h sz base s₀ s b₁ b₂ b₃ c) {w : ℕ} {store : ℕ → Vars}
    {c' : Comp} (hstore : ∀ b, store (b + 2) = vars b b₂ b₃ c') (harr : c'.arr = c.arr ++ [w])
    (hrefs : c'.lblRefs = c.lblRefs) (hlbls : c'.lbls = c.lbls) :
    Follows h sz base s₀ (append h s (vars b₁ b₂ b₃ c) (b₁ + 2) [w] store) (some c') := by
  obtain ⟨s', ⟨h1, h2, h3⟩ | ⟨b', h1, h2, h3, h4⟩⟩ :=
    hh.owned.append (s := s) (show ArrayAt s.heap b₁ [w].length c.arr from hh.arr) (by simp)
      (vars b₁ b₂ b₃ c) store
  · exact ⟨s', b₁, b₂, b₃, c, true, h1, hh.same h2 h3, fun h0 => nomatch h0⟩
  · rw [hstore] at h1
    exact ⟨s', b', b₂, b₃, c', false, h1, ⟨h2, harr ▸ h3, hrefs ▸ h4 _ (by simp) _ _ hh.refs,
      hlbls ▸ h4 _ (by simp) _ _ hh.lbls⟩, fun _ => rfl⟩

lemma Held.append_refs (hh : Held h sz base s₀ s b₁ b₂ b₃ c) {l : LblInfo}
    {store : ℕ → Vars} {c' : Comp} (hstore : ∀ b, store (b + 2) = vars b₁ b b₃ c')
    (harr : c'.arr = c.arr) (hrefs : c'.lblRefs = c.lblRefs ++ [l]) (hlbls : c'.lbls = c.lbls) :
    Follows h sz base s₀ (append h s (vars b₁ b₂ b₃ c) (b₂ + 2) (lblItem base l) store)
      (some c') := by
  obtain ⟨s', ⟨h1, h2, h3⟩ | ⟨b', h1, h2, h3, h4⟩⟩ := (hh.owned.perm (.swap b₂ b₁ [b₃])).append
    (show ArrayAt s.heap b₂ (lblItem base l).length _ from hh.refs) le_rfl (vars b₁ b₂ b₃ c) store
  · exact ⟨s', b₁, b₂, b₃, c, true, h1, hh.same h2 h3, fun h0 => nomatch h0⟩
  · rw [hstore] at h1
    refine ⟨s', b₁, b', b₃, c', false, h1, ⟨h2.perm (.swap b₁ b' [b₃]),
      harr ▸ h4 _ (by simp) _ _ hh.arr, ?_, hlbls ▸ h4 _ (by simp) _ _ hh.lbls⟩, fun _ => rfl⟩
    rw [hrefs, items_append]
    exact h3

lemma Held.append_lbls (hh : Held h sz base s₀ s b₁ b₂ b₃ c) {l : LblInfo}
    {store : ℕ → Vars} {c' : Comp} (hstore : ∀ b, store (b + 2) = vars b₁ b₂ b c')
    (harr : c'.arr = c.arr) (hrefs : c'.lblRefs = c.lblRefs) (hlbls : c'.lbls = c.lbls ++ [l]) :
    Follows h sz base s₀ (append h s (vars b₁ b₂ b₃ c) (b₃ + 2) (lblItem base l) store)
      (some c') := by
  have hperm : ∀ b, [b₁, b₂, b].Perm [b, b₁, b₂] := fun b =>
    @List.perm_append_comm _ [b₁, b₂] [b]
  obtain ⟨s', ⟨h1, h2, h3⟩ | ⟨b', h1, h2, h3, h4⟩⟩ := (hh.owned.perm (hperm b₃)).append
    (show ArrayAt s.heap b₃ (lblItem base l).length _ from hh.lbls) le_rfl (vars b₁ b₂ b₃ c) store
  · exact ⟨s', b₁, b₂, b₃, c, true, h1, hh.same h2 h3, fun h0 => nomatch h0⟩
  · rw [hstore] at h1
    refine ⟨s', b₁, b₂, b', c', false, h1, ⟨h2.perm (hperm b').symm,
      harr ▸ h4 _ (by simp) _ _ hh.arr, hrefs ▸ h4 _ (by simp) _ _ hh.refs, ?_⟩, fun _ => rfl⟩
    rw [hlbls, items_append]
    exact h3

/-- One after the other, unless the first one fails. -/
lemma Follows.bind {r : Option Round} {o : Option Comp} {f : Comp → Option Comp}
    {g : ASt → Vars → Option Round} (hr : Follows h sz base s₀ r o)
    (hg : ∀ s b₁ b₂ b₃ c, o = some c → Held h sz base s₀ s b₁ b₂ b₃ c →
      Follows h sz base s₀ (g s (vars b₁ b₂ b₃ c)) (f c)) :
    Follows h sz base s₀ (r.bind fun p => if p.2.2 then some (p.1, p.2.1, true) else g p.1 p.2.1)
      (o.bind f) := by
  obtain ⟨s', b₁, b₂, b₃, c, e, rfl, h1, h2⟩ := hr
  cases e with
  | true => exact ⟨s', b₁, b₂, b₃, c, true, rfl, h1, fun h0 => nomatch h0⟩
  | false =>
    rw [h2 rfl]
    exact hg s' b₁ b₂ b₃ c (h2 rfl) h1

/-- A label is looked for by its place. -/
lemma Held.found (hh : Held h sz base s₀ s b₁ b₂ b₃ c) (i : ℕ) :
    arrayFind s.heap.mem (fun ptr => s.heap.mem ptr = charPtr base i) (b₃ + 2)
      (arrayLen s.heap.mem (b₃ + 2)) (b₃ + 2) = 0 ↔ (c.lbls.any fun l => l.label = i) = false := by
  have hsz : s.heap.mem (itemSz (b₃ + 2)) = 2 := hh.lbls.item
  have heq : ∀ j l, c.lbls[j]? = some l →
      decide (s.heap.mem (b₃ + 2 + 2 * j) = charPtr base i) = decide (l.label = i) := by
    intro j l hj
    rw [(hh.lbls.lbl hj).1]
    exact decide_eq_decide.mpr (by unfold charPtr; omega)
  rw [hh.lbls.len]
  rcases @arrayFind_eq _ (fun ptr => s.heap.mem ptr = charPtr base i) _ _ _ (b₃ + 2) hsz
    (Nat.succ_ne_zero _) heq with
    ⟨h1, h2⟩ | ⟨j, l, h1, h2, h3⟩
  · rw [h1, List.any_eq_false]
    exact ⟨fun _ l hl => List.find?_eq_none.mp h2 l hl, fun _ => rfl⟩
  · rw [h1, List.any_eq_false]
    refine ⟨fun h0 => by omega, fun h0 => absurd (List.find?_some h3) (h0 l ?_)⟩
    exact List.mem_of_find?_eq_some h3

/-- **One round** of the loop. -/
lemma Held.step (hh : Held h sz base s₀ s b₁ b₂ b₃ c) :
    Follows h sz base s₀ (AsmHeap.compileStep h base code s (vars b₁ b₂ b₃ c))
      (Asm.compileStep code c) := by
  rw [compileStep_eq, AsmHeap.compileStep]
  have hidx : (vars b₁ b₂ b₃ c).idx = c.idx := rfl
  rw [hidx]
  cases readStmt code c.idx with
  | error => exact ⟨s, b₁, b₂, b₃, c, true, rfl, hh, fun h0 => nomatch h0⟩
  | data w idx => exact hh.append_arr (fun _ => rfl) rfl rfl rfl
  | label idx =>
    dsimp only [vars, perform]
    by_cases hfound : (c.lbls.any fun l => l.label = c.idx) = false
    · rw [if_pos ((hh.found c.idx).mpr hfound), hfound, if_neg Bool.false_ne_true]
      exact hh.append_lbls (fun _ => rfl) rfl rfl rfl
    · rw [if_neg ((hh.found c.idx).not.mpr hfound), if_pos (by simpa using hfound)]
      exact ⟨s, b₁, b₂, b₃, { c with idx := idx }, false, rfl,
        ⟨hh.owned, hh.arr, hh.refs, hh.lbls⟩, fun _ => rfl⟩
  | instr w ref idx =>
    have hword : ∀ (s : ASt) b₁ b₂ b₃ (c : Comp), Held h sz base s₀ s b₁ b₂ b₃ c →
        Follows h sz base s₀ (append h s (vars b₁ b₂ b₃ c) (b₁ + 2) [w] fun arr =>
            { vars b₁ b₂ b₃ c with arr := arr, prgmCtr := c.prgmCtr + 1, idx := idx })
          (some { c with arr := c.arr ++ [w], idx := idx, prgmCtr := c.prgmCtr + 1 }) :=
      fun s b₁ b₂ b₃ c hh => hh.append_arr (fun _ => rfl) rfl rfl rfl
    cases ref with
    | none =>
      dsimp only [vars, perform]
      rw [Option.bind_some, if_neg Bool.false_ne_true]
      exact hword s b₁ b₂ b₃ c hh
    | some label =>
      have hrefs : Follows h sz base s₀ (append h s (vars b₁ b₂ b₃ c) (b₂ + 2)
          (lblItem base ⟨label, c.prgmCtr⟩) fun refs => { vars b₁ b₂ b₃ c with lblRefs := refs })
          (some { c with lblRefs := c.lblRefs ++ [⟨label, c.prgmCtr⟩] }) :=
        hh.append_refs (fun _ => rfl) rfl rfl rfl
      have hboth := hrefs.bind (f := fun c => some
        { c with arr := c.arr ++ [w], idx := idx, prgmCtr := c.prgmCtr + 1 })
        (g := fun s v => append h s v v.arr [w] fun arr =>
          { v with arr := arr, prgmCtr := v.prgmCtr + 1, idx := idx })
        fun s b₁ b₂ b₃ c _ hh => hword s b₁ b₂ b₃ c hh
      exact hboth

/-- **A run** of the loop, which ends. -/
lemma Held.run (hh : Held h sz base s₀ s b₁ b₂ b₃ c) (hm : Marks code c) {n : ℕ}
    (hn₀ : n ≠ 0) (hn : code.length < n + c.idx) :
    Follows h sz base s₀ (AsmHeap.compileLoop h base code n s (vars b₁ b₂ b₃ c))
      (Asm.compileLoop code n c) := by
  induction n generalizing s b₁ b₂ b₃ c with
  | zero => exact absurd rfl hn₀
  | succ n ih =>
    rw [AsmHeap.compileLoop, Asm.compileLoop]
    have hidx : (vars b₁ b₂ b₃ c).idx = c.idx := rfl
    rw [hidx]
    split_ifs with hlt
    · refine hh.step.bind ?_
      intro s b₁ b₂ b₃ c' hc hh
      obtain ⟨h1, h2⟩ := hm.step hlt hc
      exact ih hh h1 (by omega) (by omega)
    · exact ⟨s, b₁, b₂, b₃, c, false, rfl, hh, fun _ => rfl⟩

/-! ### References -/

/-- A word is changed in the array of the words. -/
lemma Held.patch (hh : Held h sz base s₀ s b₁ b₂ b₃ c) {i v : ℕ} (hi : i < c.arr.length) :
    Held h sz base s₀ (s.set (b₁ + 2 + i) (s.heap.mem (b₁ + 2 + i) ||| v)) b₁ b₂ b₃
      { c with arr := c.arr.modify i (· ||| v) } := by
  obtain ⟨h1, h2, h3⟩ := hh.arr.put hh.owned.sound (v := s.heap.mem (b₁ + 2 + i) ||| v) hi
  have hmod : c.arr.modify i (· ||| v) = c.arr.set i (s.heap.mem (b₁ + 2 + i) ||| v) := by
    rw [h3, List.modify_eq_set_getElem?, List.getElem?_eq_getElem hi, List.getD_eq_getElem _ _ hi]
    rfl
  refine ⟨hh.owned.wrote h1 rfl, ?_, hh.refs.ext h1.ext (hh.owned.ne (by simp)),
    hh.lbls.ext h1.ext (hh.owned.ne (by simp))⟩
  rw [hmod]
  exact h2

/-- **The references** are resolved in the array as they are in the list. -/
lemma Held.resolve (hh : Held h sz base s₀ s b₁ b₂ b₃ c) (code : List ℕ) (d : Comp)
    (pre : List LblInfo) {rest : List LblInfo}
    (hrefs : c.lblRefs = pre ++ rest) (haddr : ∀ r ∈ rest, r.addr < c.arr.length) :
    ∃ s' e c', AsmHeap.resolve base code (vars b₁ b₂ b₃ d) rest.length
        (b₂ + 2 + 2 * pre.length) s = (s', e) ∧
      Held h sz base s₀ s' b₁ b₂ b₃ c' ∧
      Asm.resolve code c.lbls rest c.arr = if e then none else some c'.arr := by
  induction rest generalizing s c pre with
  | nil => exact ⟨s, false, c, rfl, hh, rfl⟩
  | cons r rest ih =>
    have href : lblAt s.heap.mem base (b₂ + 2 + 2 * pre.length) = r :=
      (hh.refs.lbl (by simp [hrefs])).2
    have hsz : s.heap.mem (itemSz (b₃ + 2)) = 2 := hh.lbls.item
    have heq : ∀ j l, c.lbls[j]? = some l →
        lblStreq code r (lblAt s.heap.mem base (b₃ + 2 + 2 * j)) = lblStreq code r l :=
      fun j l hj => by rw [(hh.lbls.lbl hj).2]
    have hv₁ : (vars b₁ b₂ b₃ d).arr = b₁ + 2 := rfl
    have hv₃ : (vars b₁ b₂ b₃ d).lbls = b₃ + 2 := rfl
    rw [List.length_cons, AsmHeap.resolve, Asm.resolve, hv₁, hv₃]
    dsimp only
    rw [href, hh.lbls.len]
    rcases @arrayFind_eq _ (fun ptr => lblStreq code r (lblAt s.heap.mem base ptr)) _ _ _ (b₃ + 2)
      hsz (Nat.succ_ne_zero _) heq with ⟨h1, h2⟩ | ⟨j, l, h1, h2, h3⟩
    · rw [h1, h2, if_pos rfl]
      exact ⟨s, true, c, rfl, hh, rfl⟩
    · rw [h1, h3, if_neg (by omega), (hh.lbls.lbl h2).2]
      have hpre : b₂ + 2 + 2 * pre.length + 2 = b₂ + 2 + 2 * (pre ++ [r]).length := by
        rw [List.length_append, List.length_singleton]
        omega
      rw [hpre]
      refine ih (hh.patch (haddr r List.mem_cons_self)) _ (by simp [hrefs]) fun r' hr' => ?_
      rw [List.length_modify]
      exact haddr r' (List.mem_cons_of_mem _ hr')

/-! ### Exits -/

/-- **The error exit** frees the arrays. -/
lemma Held.fail (hh : Held h sz base s₀ s b₁ b₂ b₃ c) {d : Comp} :
    ∃ s', fail h s (vars b₁ b₂ b₃ d) = some (s', 0) ∧ Owned h sz s₀ s' [] := by
  have hperm : [b₁, b₂, b₃].Perm [b₃, b₂, b₁] := (List.reverse_perm [b₁, b₂, b₃]).symm
  obtain ⟨s₁, h1, h2, -⟩ := (hh.owned.perm hperm).arrayDelete
  obtain ⟨s₂, h3, h4, -⟩ := h2.arrayDelete
  obtain ⟨s₃, h5, h6, -⟩ := h4.arrayDelete
  refine ⟨s₃, ?_, h6⟩
  dsimp only [AsmHeap.fail, vars]
  rw [h1, Option.bind_some, h3, Option.bind_some, h5]
  rfl

/-- What `compile` leaves: nothing and 0, or the array with the words. -/
def Left (h sz : ℕ) (s₀ : HSt) (out : Option (List ℕ)) (s : ASt) (r : ℕ) : Prop :=
  (r = 0 ∧ Owned h sz s₀ s []) ∨
    ∃ b ws, r = b + 2 ∧ Owned h sz s₀ s [b] ∧ out = some ws ∧ ArrayAt s.heap b 1 ws

/-- `compile` after the arrays were made. -/
lemma Held.compileText (hh : Held h sz base s₀ s b₁ b₂ b₃ (Asm.compileInit code)) :
    ∃ s' r, compileText h base code s (vars b₁ b₂ b₃ (Asm.compileInit code)) = some (s', r) ∧
      Left h sz s₀ ((Asm.compileLoop code (code.length + 1) (Asm.compileInit code)).bind fun c =>
        Asm.resolve code c.lbls c.lblRefs c.arr) s' r := by
  obtain ⟨s₁, b₁, b₂, b₃, c, e, h1, hh, h2⟩ := hh.run marks_init (n := code.length + 1)
    (Nat.succ_ne_zero _) (by omega)
  rw [AsmHeap.compileText, h1, Option.bind_some]
  dsimp only
  cases e with
  | true =>
    obtain ⟨s₂, h3, h4⟩ := hh.fail
    rw [if_pos rfl]
    exact ⟨s₂, 0, h3, .inl ⟨rfl, h4⟩⟩
  | false =>
    have hrun := h2 rfl
    have hm := marks_init.run hrun
    have hlen : arrayLen s₁.heap.mem (vars b₁ b₂ b₃ c).lblRefs = c.lblRefs.length := hh.refs.len
    obtain ⟨s₂, e, c', h3, hh', h4⟩ := hh.resolve code c [] rfl
      fun r hr => (hm.refs_le r hr).2.2
    have h3' : AsmHeap.resolve base code (vars b₁ b₂ b₃ c) c.lblRefs.length
        (vars b₁ b₂ b₃ c).lblRefs s₁ = (s₂, e) := h3
    rw [if_neg Bool.false_ne_true, hlen, h3', hrun, Option.bind_some, h4]
    dsimp only
    cases e with
    | true =>
      obtain ⟨s₃, h5, h6⟩ := hh'.fail
      rw [if_pos rfl]
      exact ⟨s₃, 0, h5, .inl ⟨rfl, h6⟩⟩
    | false =>
      have hperm : [b₁, b₂, b₃].Perm [b₃, b₂, b₁] := (List.reverse_perm [b₁, b₂, b₃]).symm
      obtain ⟨s₃, h5, h6, h7⟩ := (hh'.owned.perm hperm).arrayDelete
      obtain ⟨s₄, h8, h9, h10⟩ := h6.arrayDelete
      rw [if_neg Bool.false_ne_true, if_neg Bool.false_ne_true]
      refine ⟨s₄, b₁ + 2, ?_, .inr ⟨b₁, c'.arr, rfl, h9, rfl,
        h10 _ (by simp) _ _ (h7 _ (by simp) _ _ hh'.arr)⟩⟩
      dsimp only [vars]
      rw [h5, Option.bind_some, h8]
      rfl

/-- **What `compile` does** to the heap. -/
lemma compile_left {t : HSt} (refused : List Bool) (hs : Sound h sz t)
    (hcode : base + code.length ≤ addrSpace) :
    ∃ s' r, AsmHeap.compile h ⟨t, refused, []⟩ base code = some (s', r) ∧
      Left h sz t (Asm.compile code) s' r := by
  have ho := Owned.start refused hs
  have hsp : 4 * addrSpace < wordMod := by decide
  have hu : umdsSz = 1 := rfl
  rw [AsmHeap.compile, Asm.compile]
  dsimp only
  by_cases h0 : code.length = 0 ∨ h = 0 ∨ base = 0
  · rw [if_pos h0]
    exact ⟨_, 0, rfl, .inl ⟨rfl, ho⟩⟩
  · rw [if_neg h0, if_neg fun hlen => h0 (.inl hlen)]
    obtain ⟨s₁, a₁, h1, h2⟩ := ho.array (code.length / 32) 1 (by omega)
    rw [h1, Option.bind_some]
    dsimp only
    rcases h2 with ⟨rfl, h2⟩ | ⟨b₁, rfl, h2, h3, -⟩
    · exact ⟨s₁, 0, rfl, .inl ⟨rfl, h2⟩⟩
    · rw [if_neg (Nat.succ_ne_zero _)]
      obtain ⟨s₂, a₂, h4, h5⟩ := h2.array (code.length / 8) 2 (by omega)
      rw [h4, Option.bind_some]
      dsimp only
      rcases h5 with ⟨rfl, h5⟩ | ⟨b₂, rfl, h5, h6, h7⟩
      · obtain ⟨s₃, h8, h9, -⟩ := h5.arrayDelete
        rw [if_pos rfl, h8]
        exact ⟨s₃, 0, rfl, .inl ⟨rfl, h9⟩⟩
      · rw [if_neg (Nat.succ_ne_zero _)]
        obtain ⟨s₃, a₃, h8, h9⟩ := h5.array (code.length / 8) 2 (by omega)
        rw [h8, Option.bind_some]
        dsimp only
        rcases h9 with ⟨rfl, h9⟩ | ⟨b₃, rfl, h9, h10, h11⟩
        · obtain ⟨s₄, h12, h13, -⟩ := h9.arrayDelete
          obtain ⟨s₅, h14, h15, -⟩ := h13.arrayDelete
          rw [if_pos rfl, h12, Option.bind_some, h14]
          exact ⟨s₅, 0, rfl, .inl ⟨rfl, h15⟩⟩
        · rw [if_neg (Nat.succ_ne_zero _)]
          have hperm : [b₃, b₂, b₁].Perm [b₁, b₂, b₃] := List.reverse_perm [b₁, b₂, b₃]
          have hh : Held h sz base t s₃ b₁ b₂ b₃ (Asm.compileInit code) :=
            ⟨h9.perm hperm, h11 _ (by simp) _ _ (h7 _ (by simp) _ _ h3),
              h11 _ (by simp) _ _ h6, h10⟩
          exact hh.compileText

lemma ignored_eq_nil {as : List ℕ} : ignored h sz as = [] ↔ ∀ a ∈ as, a < freeBound h sz := by
  simp [ignored, List.filter_eq_nil_iff]

/-- The second request is refused, and the block of the first array is given back. -/
lemma compile_second {t t₁ : HSt} {a : ℕ} (h0 : h ≠ 0) (hb : base ≠ 0) (hc : code.length ≠ 0)
    (hr : t.alloc h (code.length / 32 * 1 + arrayBsz) = some (t₁, a)) (ha : a ≠ 0) :
    AsmHeap.compile h ⟨t, [false, true], []⟩ base code =
      (((t₁.set a 0).set (a + 1) 1).free h a).map fun t' => (⟨t', [], [a]⟩, 0) := by
  have hcond : ¬ (code.length = 0 ∨ h = 0 ∨ base = 0) := by simp [h0, hb, hc]
  have harr : AsmHeap.array h ⟨t, [false, true], []⟩ (code.length / 32) 1 =
      some (⟨(t₁.set a 0).set (a + 1) 1, [true], []⟩, a + 2) := by
    rw [AsmHeap.array, ASt.alloc, List.headD_cons, if_neg Bool.false_ne_true, hr]
    exact congrArg some (if_neg ha)
  have hrefs : ∀ s : HSt, AsmHeap.array h ⟨s, [true], []⟩ (code.length / 8) 2 =
      some (⟨s, [], []⟩, 0) := fun _ => rfl
  rw [AsmHeap.compile]
  dsimp only
  rw [if_neg hcond, harr, Option.bind_some]
  dsimp only
  rw [if_neg (Nat.succ_ne_zero _), hrefs, Option.bind_some]
  dsimp only
  rw [if_pos rfl, AsmHeap.arrayDelete, memAddr_add, ASt.free, Option.map_map]
  rfl

/-- A heap of a megabyte in which that happens. -/
lemma exists_second (h0 : h ≠ 0) (hroom : h + 2 ^ 17 < addrSpace) :
    ∃ t t' a, Sound h (2 ^ 17) t ∧ h ≤ a ∧ a < h + 2 ^ 17 ∧
      AsmHeap.compile h ⟨t, [false, true], []⟩ 1 (chars "ff l") = some (⟨t', [], [a]⟩, 0) := by
  obtain ⟨t, c, -, hf⟩ := exists_init h0 hroom (by decide) fun _ => True
  rcases hf.alloc (n := (chars "ff l").length / 32 * 1 + arrayBsz) (by decide) with
    ⟨-, h1⟩ | ⟨t₁, a, h1, h2, hf₁, hlive, -⟩
  · exact absurd h1 (by decide)
  have ha : a ∈ t₁.live := by simp [hlive]
  have hbounds := (fresh_sound hf₁).bounds ha
  obtain ⟨hf₂, hsame₂⟩ := hf₁.field 0 0 ha (by omega)
  obtain ⟨hf₃, hsame₃⟩ := hf₂.field 1 1 ha (by omega)
  obtain ⟨t', h3, -⟩ := free_ext (fresh_sound hf₃) (a := a) ha
  refine ⟨t, t', a, fresh_sound hf, by omega, by omega, ?_⟩
  rw [compile_second h0 (by decide) (by decide) h1 h2]
  exact congrArg (Option.map _) h3

end LispMachine.AsmHeapInv
