import LispMachine.HeapRuns

/-!
What the users of a heap may rely on: the words of the allocated blocks survive the operations
on the heap and the writes to other words.

A word of a block is given by the address of the block and its offset.
-/

namespace LispMachine.HeapFrame

open LispMachine.Memory LispMachine.AvlCode LispMachine.AvlRepr LispMachine.Alloc
open LispMachine.HeapInv LispMachine.Heap LispMachine.HeapRuns LispMachine.Object
open LispMachine.FreeTree LispMachine.Lib.BalTree LispMachine.Lib.BalTree.BTree
open LispMachine.Lib.Segments

/-- The allocator's data are in order. -/
def Sound (h sz : ℕ) (s : HSt) : Prop := ∃ lost t U, Inv h sz s lost t U

/-- The block at `a` is still allocated, with the same length and the same word at `i`. -/
structure Survives (s s' : HSt) (a i : ℕ) : Prop where
  live : a ∈ s'.live
  memSz : getMemSz s'.mem a = getMemSz s.mem a
  word : s'.mem (a + i) = s.mem (a + i)

/-- There is a free block of `x` words. -/
def Room (h sz : ℕ) (s : HSt) (x : ℕ) : Prop := ∃ lost t U, Inv h sz s lost t U ∧ Roomy t x

/-- All the words of the blocks survive but those of `W`. -/
def Ext (W : ℕ → ℕ → Prop) (s s' : HSt) : Prop :=
  ∀ a ∈ s.live, ∀ i < getMemSz s.mem a, ¬ W a i → Survives s s' a i

variable {h sz : ℕ} {s s' s'' : HSt} {W W' : ℕ → ℕ → Prop} {a b i j n v : ℕ}

lemma Ext.refl (s : HSt) : Ext W s s := fun _ ha _ _ _ => ⟨ha, rfl, rfl⟩

lemma Ext.mono (hx : Ext W s s') (hW : ∀ a i, W a i → W' a i) : Ext W' s s' :=
  fun a ha i hi hn => hx a ha i hi fun hw => hn (hW a i hw)

lemma Ext.trans (hx : Ext W s s') (hx' : Ext W' s' s'') :
    Ext (fun a i => W a i ∨ W' a i) s s'' := by
  intro a ha i hi hn
  have h1 := hx a ha i hi fun hw => hn (.inl hw)
  have h2 := hx' a h1.live i (by rwa [h1.memSz]) fun hw => hn (.inr hw)
  exact ⟨h2.live, h2.memSz.trans h1.memSz, h2.word.trans h1.word⟩

/-! ### The words of the blocks -/

/-- Blocks lie in the heap, after its header. -/
lemma Sound.bounds (hs : Sound h sz s) (ha : a ∈ s.live) :
    h + 9 ≤ a ∧ a + getMemSz s.mem a ≤ h + sz ∧ 3 ≤ getMemSz s.mem a ∧ h + sz < addrSpace := by
  obtain ⟨lost, t, U, hi⟩ := hs
  obtain ⟨p, k, V, rfl, hU, -⟩ := hi.exists_block ha
  obtain ⟨h1, h2, h3, h4⟩ := hi.getMemSz_eq (hU.symm.subset List.mem_cons_self)
  have := hi.blocks.room
  omega

lemma Sound.nodup (hs : Sound h sz s) : s.live.Nodup := by
  obtain ⟨lost, t, U, hi⟩ := hs
  exact nodup_live hi

/-- A word is in one block only. -/
lemma Sound.word_inj (hs : Sound h sz s) (ha : a ∈ s.live) (hb : b ∈ s.live)
    (hi : i < getMemSz s.mem a) (hj : j < getMemSz s.mem b) (heq : a + i = b + j) :
    a = b ∧ i = j := by
  by_cases hne : b = a
  · subst hne
    omega
  · have h1 := hs.bounds ha
    have h2 := hs.bounds hb
    obtain ⟨lost, t, U, hinv⟩ := hs
    have h3 := disjoint_live hinv ha hb hne
    unfold BlocksDisjoint umdsSz at h3
    omega

/-- Blocks of four words or more do not overlap as nodes either. -/
lemma Sound.apart (hs : Sound h sz s) (ha : a ∈ s.live) (hb : b ∈ s.live)
    (ha' : 4 ≤ getMemSz s.mem a) (hb' : 4 ≤ getMemSz s.mem b) (hne : b ≠ a) : Apart a b := by
  obtain ⟨lost, t, U, hinv⟩ := hs
  have h3 := disjoint_live hinv ha hb hne
  unfold BlocksDisjoint umdsSz at h3
  unfold Apart
  omega

/-! ### Writes -/

/-- A change within the blocks keeps the allocator's data. -/
lemma Inv.users {lost : List ℕ} {t : T} {U : List Entry} (hi : Inv h sz s lost t U) {m' : Mem}
    (hm : ∀ x, (∀ a ∈ s.live, ∀ i < getMemSz s.mem a, x ≠ a + i) → m' x = s.mem x) :
    Inv h sz ⟨m', s.live⟩ lost t U ∧ ∀ a ∈ s.live, getMemSz m' a = getMemSz s.mem a := by
  have hbounds := fun {a} => Sound.bounds (a := a) ⟨lost, t, U, hi⟩
  have hb := hi.blocks
  have hblock : ∀ a ∈ s.live, ∃ p k, a = p + 1 ∧ (p, k) ∈ U ∧ getMemSz s.mem a = k - 1 ∧
      4 ≤ k := by
    intro a ha
    obtain ⟨p, k, V, rfl, hU, -⟩ := hi.exists_block ha
    have hp : (p, k) ∈ U := hU.symm.subset List.mem_cons_self
    exact ⟨p, k, rfl, hp, (hi.getMemSz_eq hp).1, (hi.getMemSz_eq hp).2.1⟩
  have hheader : ∀ e ∈ U, m' e.1 = s.mem e.1 := by
    intro e he
    refine hm _ fun a ha i hi' heq => ?_
    obtain ⟨p, k, rfl, hp, h1, h2⟩ := hblock a ha
    by_cases h3 : (p, k) = e
    · subst h3
      simp only at heq
      omega
    · have h4 := hb.clear (e := (p, k)) (f := e) (by simp [hp]) (by simp [he]) h3
      have h5 := hb.part.pos e (by simp [he])
      unfold Clear at h4
      simp only at h4
      omega
  have hinv : Inv h sz ⟨m', s.live⟩ lost t U := by
    refine ⟨hb.congr (fun x hx => ?_) hheader fun x e he hin => ?_, hi.used⟩
    · refine hm _ fun a ha i _ heq => ?_
      have := (hbounds ha).1
      simp only [headerCells, List.mem_cons, List.not_mem_nil, or_false, Alloc.heapEnd, fmdsPtr,
        trueNumAlloced, wordsUsed] at hx
      omega
    · refine hm _ fun a ha i hi' heq => ?_
      obtain ⟨p, k, rfl, hp, h1, h2⟩ := hblock a ha
      have h4 := hb.clear_used he hp
      unfold Clear at h4
      unfold In at hin
      simp only at h4
      omega
  refine ⟨hinv, fun a ha => ?_⟩
  obtain ⟨p, k, rfl, hp, h1, -⟩ := hblock a ha
  rw [h1, (hinv.getMemSz_eq hp).1]

lemma Sound.users (hs : Sound h sz s) {m' : Mem}
    (hm : ∀ x, (∀ a ∈ s.live, ∀ i < getMemSz s.mem a, x ≠ a + i) → m' x = s.mem x) :
    Sound h sz ⟨m', s.live⟩ ∧ ∀ a ∈ s.live, getMemSz m' a = getMemSz s.mem a := by
  obtain ⟨lost, t, U, hi⟩ := hs
  exact ⟨⟨lost, t, U, (Inv.users hi hm).1⟩, (Inv.users hi hm).2⟩

/-- The free blocks are as before. -/
lemma Room.users {x : ℕ} (hr : Room h sz s x) {m' : Mem}
    (hm : ∀ x, (∀ a ∈ s.live, ∀ i < getMemSz s.mem a, x ≠ a + i) → m' x = s.mem x) :
    Room h sz ⟨m', s.live⟩ x := by
  obtain ⟨lost, t, U, hi, hroom⟩ := hr
  exact ⟨lost, t, U, (Inv.users hi hm).1, hroom⟩

/-- The state `s'` is `s` after some writes to the words of `W`. -/
structure Wrote (h sz : ℕ) (W : ℕ → ℕ → Prop) (s s' : HSt) : Prop where
  sound : Sound h sz s'
  live : s'.live = s.live
  memSz : ∀ a ∈ s.live, getMemSz s'.mem a = getMemSz s.mem a
  ext : Ext W s s'
  room : ∀ x, Room h sz s x → Room h sz s' x
  rest : ∀ x, (∀ a ∈ s.live, ∀ i < getMemSz s.mem a, x ≠ a + i) → s'.mem x = s.mem x

namespace Wrote

lemma refl (hs : Sound h sz s) : Wrote h sz W s s :=
  ⟨hs, rfl, fun _ _ => rfl, .refl s, fun _ => id, fun _ _ => rfl⟩

lemma mono (hw : Wrote h sz W s s') (hW : ∀ a i, W a i → W' a i) : Wrote h sz W' s s' :=
  ⟨hw.sound, hw.live, hw.memSz, hw.ext.mono hW, hw.room, hw.rest⟩

lemma trans (hw : Wrote h sz W s s') (hw' : Wrote h sz W s' s'') : Wrote h sz W s s'' :=
  ⟨hw'.sound, hw'.live.trans hw.live, fun b hb =>
    (hw'.memSz b (hw.live ▸ hb)).trans (hw.memSz b hb),
    (hw.ext.trans hw'.ext).mono fun _ _ h => h.elim id id, fun x hx => hw'.room x (hw.room x hx),
    fun x hx => (hw'.rest x fun a ha i hi => hx a (hw.live ▸ ha) i
      (by rwa [hw.memSz a (hw.live ▸ ha)] at hi)).trans (hw.rest x hx)⟩

lemma users (hs : Sound h sz s) {m' : Mem}
    (hm : ∀ x, (∀ a ∈ s.live, ∀ i < getMemSz s.mem a, x ≠ a + i) → m' x = s.mem x)
    (hW : ∀ a ∈ s.live, ∀ i < getMemSz s.mem a, ¬ W a i → m' (a + i) = s.mem (a + i)) :
    Wrote h sz W s ⟨m', s.live⟩ := by
  obtain ⟨h1, h2⟩ := hs.users hm
  exact ⟨h1, rfl, h2, fun a ha i hi hn => ⟨ha, h2 a ha, hW a ha i hi hn⟩,
    fun x hx => hx.users hm, hm⟩

lemma set (hw : Wrote h sz W s s') (v : ℕ) (ha : a ∈ s.live) (hi : i < getMemSz s.mem a)
    (hW : W a i) : Wrote h sz W s (s'.set (a + i) v) := by
  have ha' : a ∈ s'.live := hw.live ▸ ha
  have hi' : i < getMemSz s'.mem a := by rwa [hw.memSz a ha]
  have h1 : Wrote h sz W s' (s'.set (a + i) v) := by
    refine users hw.sound (fun x hx => set_ne _ _ (hx a ha' i hi')) fun b hb j hj hn => ?_
    refine set_ne _ _ fun heq => hn ?_
    obtain ⟨rfl, rfl⟩ := hw.sound.word_inj hb ha' hj hi' heq
    exact hW
  exact hw.trans h1

/-- A count of references is written. -/
lemma incRefcount {o : ℕ} (hw : Wrote h sz W s s') (n : ℕ) (ho : o + 1 ∈ s.live)
    (hW : W (o + 1) 0) : Wrote h sz W s (incRefcount s' o n) := by
  have h1 := (hw.sound.bounds (hw.live ▸ ho)).2.2.1
  rw [hw.memSz _ ho] at h1
  exact hw.set (a := o + 1) (i := 0) _ ho (by omega) hW

end Wrote

/-! ### The operations of the heap -/

lemma alloc_ext (hs : Sound h sz s) (hn : n + umdsSz < wordMod)
    (hr : s.alloc h n = some (s', a)) (h0 : a ≠ 0) :
    Sound h sz s' ∧ Ext (fun _ _ => False) s s' ∧ s'.live = a :: s.live ∧
      n ≤ getMemSz s'.mem a := by
  obtain ⟨lost, t, U, hi⟩ := hs
  obtain ⟨s₁, a₁, h1, h2⟩ := alloc_meets hi hn
  obtain ⟨rfl, rfl⟩ := Prod.mk.inj (Option.some.inj (h1.symm.trans hr))
  rcases hi.alloc hn with ⟨h3, -⟩ | ⟨s₂, p, v, k, rest, t', h3, -, h4, h5⟩
  · obtain ⟨-, rfl⟩ := Prod.mk.inj (Option.some.inj (h3.symm.trans h1))
    exact absurd rfl h0
  · obtain ⟨rfl, rfl⟩ := Prod.mk.inj (Option.some.inj (h3.symm.trans h1))
    refine ⟨⟨lost, t', _, h5⟩, fun b hb i hlt _ => ?_, h4, h2.size h0⟩
    obtain ⟨h6, h7⟩ := h2.kept b hb
    exact ⟨h4 ▸ List.mem_cons_of_mem _ hb, h6, h7 i hlt⟩

lemma free_ext (hs : Sound h sz s) (ha : a ∈ s.live) :
    ∃ s', s.free h a = some s' ∧ Sound h sz s' ∧ Ext (fun b _ => b = a) s s' ∧
      s'.live = s.live.erase a := by
  obtain ⟨lost, t, U, hi⟩ := hs
  obtain ⟨s₁, h1, h2⟩ := free_meets hi ha
  obtain ⟨s₂, t', V, p, k, h3, h4, -, -, h5, -⟩ := hi.free ha
  obtain rfl := Option.some.inj (h3.symm.trans h1)
  refine ⟨s₂, h1, ⟨_, t', V, h5⟩, fun b hb i hlt hne => ?_, h4⟩
  obtain ⟨h6, h7⟩ := h2 b hb hne
  exact ⟨h4 ▸ (List.mem_erase_of_ne hne).mpr hb, h6, h7 i hlt⟩

lemma realloc_ext (hs : Sound h sz s) (ha : a ∈ s.live) (hn : n + umdsSz < wordMod)
    (hr : s.realloc h a n = some (s', b)) (h0 : b ≠ 0) :
    Sound h sz s' ∧ Ext (fun c _ => c = a) s s' ∧ s'.live = b :: s.live.erase a ∧
      n ≤ getMemSz s'.mem b := by
  obtain ⟨lost, t, U, hi⟩ := hs
  obtain ⟨s₁, b₁, h1, h2⟩ := realloc_meets hi ha hn
  obtain ⟨rfl, rfl⟩ := Prod.mk.inj (Option.some.inj (h1.symm.trans hr))
  rcases hi.realloc ha hn with
    ⟨h3, -⟩ | ⟨s₂, t', V, p, k, q, v, k', h3, h4, -, -, -, -, -, -, -, h5, -⟩
  · obtain ⟨-, rfl⟩ := Prod.mk.inj (Option.some.inj (h3.symm.trans h1))
    exact absurd rfl h0
  · obtain ⟨rfl, rfl⟩ := Prod.mk.inj (Option.some.inj (h3.symm.trans h1))
    refine ⟨⟨_, t', V, h5⟩, fun c hc i hlt hne => ?_, h4, h2.size h0⟩
    obtain ⟨h6, h7⟩ := h2.kept c hc hne
    exact ⟨h4 ▸ List.mem_cons_of_mem _ ((List.mem_erase_of_ne hne).mpr hc), h6, h7 i hlt⟩

/-! ### Room for more -/

lemma Room.mono (hr : Room h sz s n) (hle : j ≤ n) : Room h sz s j := by
  obtain ⟨lost, t, U, hi, e, he, h1⟩ := hr
  exact ⟨lost, t, U, hi, e, he, hle.trans h1⟩

lemma alloc_room {x : ℕ} (hn : n + umdsSz < wordMod) (hr : s.alloc h n = some (s', a))
    (hx : Room h sz s (x + need n + minAllocSz)) : a ≠ 0 ∧ Room h sz s' x := by
  obtain ⟨lost, t, U, hi, hroom⟩ := hx
  rcases hi.alloc hn with ⟨-, h1⟩ | ⟨s₂, p, v, k, rest, t', h1, h2, -, h3⟩
  · obtain ⟨e, he, hle⟩ := hroom
    have := h1 e he
    omega
  · obtain ⟨rfl, rfl⟩ := Prod.mk.inj (Option.some.inj (h1.symm.trans hr))
    exact ⟨by omega, lost, t', _, h3, h2.roomy hroom⟩

lemma realloc_room {x : ℕ} (ha : a ∈ s.live) (hn : n + umdsSz < wordMod)
    (hr : s.realloc h a n = some (s', b)) (hx : Room h sz s (x + need n + minAllocSz)) :
    b ≠ 0 ∧ Room h sz s' x := by
  obtain ⟨lost, t, U, hi, hroom⟩ := hx
  rcases hi.realloc ha hn with
    ⟨-, h1⟩ | ⟨s₂, t', V, p, k, q, v, k', h1, -, -, -, -, -, -, -, -, h2, -, -, h3⟩
  · obtain ⟨e, he, hle⟩ := hroom
    have := h1 e he
    omega
  · obtain ⟨rfl, rfl⟩ := Prod.mk.inj (Option.some.inj (h1.symm.trans hr))
    exact ⟨by omega, _, t', V, h2, h3 x hroom⟩

lemma Room.sound {x : ℕ} (hr : Room h sz s x) : Sound h sz s := by
  obtain ⟨lost, t, U, hi, -⟩ := hr
  exact ⟨lost, t, U, hi⟩

/-- A block and a free one are both in the heap. -/
lemma Room.block_le {x : ℕ} (hr : Room h sz s x) (ha : a ∈ s.live) : x + getMemSz s.mem a ≤ sz := by
  obtain ⟨lost, t, U, hi, e, he, hle⟩ := hr
  obtain ⟨p, k, V, rfl, hU, -⟩ := hi.exists_block ha
  have hp : (p, k) ∈ U := hU.symm.subset List.mem_cons_self
  have h1 := hi.blocks.clear_used he hp
  have h2 := hi.blocks.part.bounds (List.mem_append_left U he)
  have h3 := hi.blocks.part.bounds (List.mem_append_right t.toList hp)
  rw [(hi.getMemSz_eq hp).1]
  unfold Clear at h1
  dsimp only at h1 h3
  omega

/-- `alloc` finds a block exactly if there is a free one with the words it looks for. -/
lemma alloc_found_iff (hs : Sound h sz s) (hn : n + umdsSz < wordMod)
    (hr : s.alloc h n = some (s', a)) : a ≠ 0 ↔ Room h sz s (need n) := by
  constructor
  · intro h0
    obtain ⟨lost, t, U, hi⟩ := hs
    rcases hi.alloc hn with ⟨h1, -⟩ | ⟨s₂, p, v, k, rest, t', -, hg, -, -⟩
    · exact absurd (Prod.mk.inj (Option.some.inj (h1.symm.trans hr))).2.symm h0
    · exact ⟨lost, t, U, hi, _, hg.found.symm.subset List.mem_cons_self, hg.large⟩
  · rintro ⟨lost, t, U, hi, e, he, hle⟩
    rcases hi.alloc hn with ⟨-, h1⟩ | ⟨s₂, p, v, k, rest, t', h1, -⟩
    · exact absurd (h1 e he) (not_lt.mpr hle)
    · have := (Prod.mk.inj (Option.some.inj (h1.symm.trans hr))).2
      omega

/-- A heap from which `k` blocks of four words have been handed out, with room for more. -/
lemma exists_blocks (h0 : h ≠ 0) (hroom : h + 2 ^ 17 < addrSpace) (k : ℕ) (hk : k ≤ 100) :
    ∃ (s : HSt) (as : List ℕ), (heapSystem h (2 ^ 17) fun _ => True).Reachable s ∧
      Room h (2 ^ 17) s (2 ^ 17 - 200 - 9 * k) ∧ as.length = k ∧ as.Nodup ∧
      ∀ a ∈ as, a ∈ s.live ∧ 4 ≤ getMemSz s.mem a := by
  induction k with
  | zero =>
    obtain ⟨s, c, h1, -, t, U, hi, h2⟩ := exists_init h0 hroom (by decide) fun _ => True
    refine ⟨s, [], .init h1, ⟨[], t, U, hi, ?_⟩, rfl, List.nodup_nil, by simp⟩
    rcases h2 with h2 | ⟨x, v, h2, h3⟩
    · omega
    · exact ⟨(x, v), by simp [h2], by simp only; omega⟩
  | succ k ih =>
    obtain ⟨s, as, h1, h2, h3, h4, h5⟩ := ih (by omega)
    have hn : 4 + umdsSz < wordMod := by decide
    obtain ⟨lost, t, U, hi⟩ := h2.sound
    obtain ⟨s', a, h6, -⟩ := alloc_meets hi hn
    have hneed : need 4 + minAllocSz = 9 := rfl
    obtain ⟨h7, h8⟩ := alloc_room (x := 2 ^ 17 - 200 - 9 * (k + 1)) hn h6
      (h2.mono (by omega))
    obtain ⟨h9, hx, hlive, hsz⟩ := alloc_ext h2.sound hn h6 h7
    have hnd := h9.nodup
    rw [hlive, List.nodup_cons] at hnd
    refine ⟨s', a :: as, h1.step (.alloc hn h6), h8, by rw [List.length_cons, h3],
      List.nodup_cons.mpr ⟨fun ha => hnd.1 (h5 a ha).1, h4⟩, fun b hb => ?_⟩
    rcases List.mem_cons.mp hb with rfl | hb
    · exact ⟨by rw [hlive]; exact List.mem_cons_self, hsz⟩
    · obtain ⟨h10, h11⟩ := h5 b hb
      have h12 := hx b h10 0 (by omega) id
      exact ⟨h12.live, by rw [h12.memSz]; exact h11⟩

end LispMachine.HeapFrame
