import LispMachine.HeapFrame

/-!
Which blocks of a heap are in use.

The header of a heap counts its used blocks, those also that no one holds any more. A block that is
given back is used no longer if its address is below the bound of `free`; so what is left of an
operation is known from the blocks that it took and from the addresses that it gave back.
-/

namespace LispMachine.Owned

open LispMachine.Memory LispMachine.AvlCode LispMachine.AvlRepr LispMachine.Alloc
open LispMachine.FreeTree LispMachine.HeapInv LispMachine.Heap LispMachine.HeapFrame
open LispMachine.HeapRuns LispMachine.Lib.BalTree LispMachine.Lib.BalTree.BTree
open LispMachine.Lib.Segments

variable {h sz a b i n p k q : ℕ} {s₀ s s' : HSt} {t : T} {U V : List Entry} {P P' B : List ℕ}
  {W : ℕ → ℕ → Prop}

/-! ### The used blocks -/

/-- The used blocks are those of `U`; what else is in the header is as it was in the state `s₀`. -/
structure Owns (h sz : ℕ) (s₀ s : HSt) (U : List Entry) : Prop where
  inv : ∃ lost t, Inv h sz s lost t U
  header : ∀ x < h + hdsSz, x ∉ headerCells h → s.mem x = s₀.mem x

namespace Owns

lemma sound (ho : Owns h sz s₀ s U) : Sound h sz s := by
  obtain ⟨lost, t, hi⟩ := ho.inv
  exact ⟨lost, t, U, hi⟩

lemma of_sound (hs : Sound h sz s) : ∃ U, Owns h sz s s U := by
  obtain ⟨lost, t, U, hi⟩ := hs
  exact ⟨U, ⟨lost, t, hi⟩, fun _ _ _ => rfl⟩

/-- An allocated block is one of them. -/
lemma exists_block (ho : Owns h sz s₀ s U) (ha : a ∈ s.live) :
    ∃ p k V, a = p + 1 ∧ U.Perm ((p, k) :: V) := by
  obtain ⟨lost, t, hi⟩ := ho.inv
  obtain ⟨p, k, V, hp, hU, -⟩ := hi.exists_block ha
  exact ⟨p, k, V, hp, hU⟩

/-- Words of the users are written: the allocator's data are the same. -/
lemma users (ho : Owns h sz s₀ s U) (hlive : s'.live = s.live)
    (hm : ∀ x, (∀ a ∈ s.live, ∀ i < getMemSz s.mem a, x ≠ a + i) → s'.mem x = s.mem x) :
    Owns h sz s₀ s' U ∧ ∀ x, Room h sz s' x ↔ Room h sz s x := by
  have hs := ho.sound
  have heq : s' = ⟨s'.mem, s.live⟩ := hlive ▸ rfl
  obtain ⟨hs', hsz⟩ := hs.users hm
  refine ⟨⟨?_, fun x hx hc => (hm x fun a ha i _ => ?_).trans (ho.header x hx hc)⟩, fun x => ?_⟩
  · obtain ⟨lost, t, hinv⟩ := ho.inv
    exact ⟨lost, t, heq ▸ (Inv.users hinv hm).1⟩
  · have := (hs.bounds ha).1
    unfold hdsSz at hx
    omega
  · rw [heq]
    refine ⟨fun hr => ?_, fun hr => hr.users hm⟩
    have hback : Room h sz ⟨s.mem, s.live⟩ x := hr.users fun y hy =>
      (hm y fun a ha i hi => hy a ha i (by rwa [hsz a ha])).symm
    exact hback

/-- A word of a user is written. -/
lemma set (ho : Owns h sz s₀ s U) (v : ℕ) (ha : a ∈ s.live) (hi : i < getMemSz s.mem a) :
    Owns h sz s₀ (s.set (a + i) v) U ∧ ∀ x, Room h sz (s.set (a + i) v) x ↔ Room h sz s x :=
  ho.users rfl fun _ hx => set_ne _ _ (hx a ha i hi)

/-- The words that an operation on the allocator's data writes are not among the others of the
header. -/
lemma header_of_local (ho : Owns h sz s₀ s U) {L : List Seg}
    (hl : Local (headerCells h) L s.mem s'.mem) (hL : ∀ e ∈ L, h + hdsSz ≤ e.1) :
    ∀ x < h + hdsSz, x ∉ headerCells h → s'.mem x = s₀.mem x := by
  intro x hx hc
  refine (hl x hc fun e he hin => ?_).trans (ho.header x hx hc)
  have := hL e he
  unfold In at hin
  omega

/-- `alloc` takes a block. -/
lemma alloc (ho : Owns h sz s₀ s U) (hn : n + umdsSz < wordMod)
    (hr : s.alloc h n = some (s', a)) (h0 : a ≠ 0) :
    ∃ p k, a = p + 1 ∧ Owns h sz s₀ s' ((p, k) :: U) := by
  obtain ⟨lost, t, hi⟩ := ho.inv
  rcases hi.alloc hn with ⟨h1, -⟩ | ⟨s₁, p, v, k, rest, t', h1, hg, -, h2⟩
  · exact absurd (Prod.mk.inj (Option.some.inj (h1.symm.trans hr))).2.symm h0
  · obtain ⟨rfl, rfl⟩ := Prod.mk.inj (Option.some.inj (h1.symm.trans hr))
    exact ⟨p, k, rfl, ⟨lost, t', h2⟩, ho.header_of_local hg.keeps fun e he =>
      (hi.blocks.part.bounds (s := e) (by simp [he])).1⟩

/-- `free`, which gives the block back only if its address is below the bound. -/
lemma free (ho : Owns h sz s₀ s U) (hU : U.Perm ((p, k) :: V)) (hp : p + 1 ∈ s.live) :
    ∃ s', s.free h (p + 1) = some s' ∧ s'.live = s.live.erase (p + 1) ∧
      Ext (fun b _ => b = p + 1) s s' ∧
      Owns h sz s₀ s' (if p + 1 < freeBound h sz then V else U) := by
  obtain ⟨s', h1, -, h2, h3⟩ := free_ext ho.sound hp
  obtain ⟨lost, t, hi⟩ := ho.inv
  refine ⟨s', h1, h3, h2, ?_⟩
  obtain ⟨h4, h5⟩ := free_spec hi.blocks hU
  rw [freeLimit_eq hi.blocks] at h4 h5
  have hperm : (V.map fun e => e.1 + 1).Perm (s.live.erase (p + 1) ++ lost) := by
    have h6 := (hU.map fun e : Entry => e.1 + 1).symm.trans hi.used
    exact (h6.trans ((List.perm_cons_erase hp).append_right lost)).cons_inv
  by_cases hl : p + 1 < freeBound h sz
  · obtain ⟨m', t', h6, h7, h8, -⟩ := h5 hl
    rw [HSt.free, h6] at h1
    obtain rfl := Option.some.inj h1
    rw [if_pos hl]
    refine ⟨⟨lost, t', h7, hperm⟩, ho.header_of_local h8 fun e he => ?_⟩
    have hmem : e ∈ t.toList ++ U := by
      rcases List.mem_cons.mp he with rfl | he
      · exact List.mem_append_right _ (hU.symm.subset List.mem_cons_self)
      · exact List.mem_append_left _ he
    exact (hi.blocks.part.bounds hmem).1
  · rw [HSt.free, h4 (not_lt.mp hl)] at h1
    obtain rfl := Option.some.inj h1
    rw [if_neg hl]
    refine ⟨⟨(p + 1) :: lost, t, hi.blocks, hi.used.trans ?_⟩, ho.header⟩
    exact ((List.perm_cons_erase hp).append_right lost).trans List.perm_middle.symm

/-- `realloc` takes a block, and gives the old one back as `free` does. -/
lemma realloc (ho : Owns h sz s₀ s U) (hU : U.Perm ((p, k) :: V)) (hp : p + 1 ∈ s.live)
    (hn : n + umdsSz < wordMod) (hr : s.realloc h (p + 1) n = some (s', b)) (h0 : b ≠ 0) :
    ∃ q l, b = q + 1 ∧
      Owns h sz s₀ s' ((q, l) :: if p + 1 < freeBound h sz then V else U) := by
  obtain ⟨lost, t, hi⟩ := ho.inv
  have hmem : (p, k) ∈ U := hU.symm.subset List.mem_cons_self
  rcases realloc_spec hi.blocks hU hn with ⟨h1, -⟩ | ⟨m', q, v, l, t', h1, -, -, -, -, h2, -, h3, -⟩
  · rw [HSt.realloc, h1] at hr
    exact absurd (Prod.mk.inj (Option.some.inj hr)).2.symm h0
  rw [HSt.realloc, h1] at hr
  obtain ⟨rfl, rfl⟩ := Prod.mk.inj (Option.some.inj hr)
  rw [freeLimit_eq hi.blocks] at h2
  refine ⟨q, l, rfl, ⟨if p + 1 < freeBound h sz then lost else (p + 1) :: lost, t', h2, ?_⟩,
    ho.header_of_local h3 fun e he => ?_⟩
  · have h4 := (hU.map fun e : Entry => e.1 + 1).symm.trans hi.used
    have h5 := h4.trans ((List.perm_cons_erase hp).append_right lost)
    rw [if_neg h0, List.cons_append]
    by_cases hl : p + 1 < freeBound h sz
    · rw [if_pos hl, if_pos hl]
      exact h5.cons_inv.cons _
    · rw [if_neg hl, if_neg hl]
      refine (hi.used.cons _).trans (List.Perm.cons _ ?_)
      exact ((List.perm_cons_erase hp).append_right lost).trans List.perm_middle.symm
  · rcases List.mem_cons.mp he with rfl | he
    · exact (hi.blocks.part.bounds (List.mem_append_right _ hmem)).1
    · exact (hi.blocks.part.bounds (List.mem_append_left _ he)).1

end Owns

/-! ### The block that is found -/

/-- The free block that `avl_min_ge` finds. -/
def minGe (d : ℕ) : T → ℕ
  | .nil => 0
  | .node _ l e r =>
    if minGe d l ≠ 0 then minGe d l
    else if minGe d r ≠ 0 then minGe d r
    else if d ≤ e.2 then e.1 else 0

lemma avlMinGe_eq {m : Mem} {par d : ℕ} (ht : Repr m t par) (hn : t.height < n) :
    avlMinGe m n (root t) d = some (minGe d t) := by
  induction t generalizing n par with
  | nil =>
    obtain ⟨n, rfl⟩ : ∃ k, n = k + 1 := ⟨n - 1, by omega⟩
    exact if_pos rfl
  | node b l e r ihl ihr =>
    obtain ⟨n, rfl⟩ : ∃ k, n = k + 1 := ⟨n - 1, by omega⟩
    obtain ⟨p, v⟩ := e
    obtain ⟨p0, -, p2, p3, p4, hl, hr⟩ := ht
    simp only [height] at hn
    have hL : child m .L p = root l := ptr_of_eq p2
    have hR : child m .R p = root r := ptr_of_eq p3
    have hx := ihl (n := n) hl (by omega)
    have hy := ihr (n := n) hr (by omega)
    rw [avlMinGe, root, if_neg p0, hL, hR, hx, hy, Option.bind_some, Option.bind_some, data, p4,
      minGe]
    split_ifs <;> rfl

/-- The address that `alloc` returns. -/
lemma alloc_addr {lost : List ℕ} (hi : Inv h sz s lost t U) (hn : n + umdsSz < wordMod)
    (hr : s.alloc h n = some (s', a)) :
    a = if minGe (need n) t = 0 then 0 else minGe (need n) t + 1 := by
  obtain ⟨m', h1⟩ : ∃ m', Alloc.alloc s.mem h n = some (m', a) := by
    obtain ⟨⟨m', x⟩, h1, h2⟩ := Option.map_eq_some_iff.mp hr
    obtain rfl : x = a := (Prod.mk.inj h2).2
    exact ⟨m', h1⟩
  have hptr : s.mem.ptr (fmdsPtr h) = root t := ptr_of_eq hi.blocks.holds.zip.path
  have hfuel := hi.blocks.fuel_lt
  have hfind := avlMinGe_eq (d := need n) hi.blocks.holds.zip.tree (by omega : t.height < fuel)
  simp only [Alloc.alloc, need_eq hn, hptr, hfind, Option.bind_some] at h1
  by_cases h0 : minGe (need n) t = 0
  · rw [if_pos h0] at h1 ⊢
    exact (Prod.mk.inj (Option.some.inj h1)).2.symm
  · rw [if_neg h0] at h1 ⊢
    obtain ⟨x, -, h2⟩ := Option.bind_eq_some_iff.mp h1
    obtain ⟨y, -, h3⟩ := Option.map_eq_some_iff.mp h2
    exact (Prod.mk.inj h3).2.symm

/-- If `alloc` has a block for `n` words, it is one that can be given back. -/
def GivesBack (h sz : ℕ) (s : HSt) (n : ℕ) : Prop :=
  ∀ s' a, s.alloc h n = some (s', a) → a = 0 ∨ a < freeBound h sz

lemma givesBack_iff {lost : List ℕ} (hi : Inv h sz s lost t U) (hn : n + umdsSz < wordMod) :
    GivesBack h sz s n ↔ minGe (need n) t = 0 ∨ minGe (need n) t + 1 < freeBound h sz := by
  obtain ⟨s₁, a, h1, -⟩ := alloc_meets hi hn
  have h2 := alloc_addr hi hn h1
  constructor
  · intro hg
    have h3 := hg s₁ a h1
    by_cases h0 : minGe (need n) t = 0
    · exact .inl h0
    · rw [if_neg h0] at h2
      omega
  · intro hor s₂ b h3
    obtain rfl := (Prod.mk.inj (Option.some.inj (h1.symm.trans h3))).2
    split_ifs at h2 <;> omega

/-- Words of the users do not matter for it. -/
lemma givesBack_wrote (hs : Sound h sz s) (hw : Wrote h sz W s s') (hn : n + umdsSz < wordMod) :
    GivesBack h sz s' n ↔ GivesBack h sz s n := by
  obtain ⟨lost, t, U, hi⟩ := hs
  have heq : s' = ⟨s'.mem, s.live⟩ := hw.live ▸ rfl
  rw [givesBack_iff hi hn, heq, givesBack_iff (Inv.users hi hw.rest).1 hn]

/-- In the first ninth of the address space any block can be given back. -/
lemma givesBack_low (hs : Sound h sz s) (hroom : h + 8 * (h + sz) < addrSpace)
    (hn : n + umdsSz < wordMod) : GivesBack h sz s n := by
  intro s' a hr
  by_cases h0 : a = 0
  · exact .inl h0
  · obtain ⟨hs', -, hlive, -⟩ := alloc_ext hs hn hr h0
    have hb := hs'.bounds (a := a) (by simp [hlive])
    exact .inr (lt_freeBound hroom (by omega))

/-! ### What an operation takes -/

/-- Besides the blocks of `U`, those at the addresses of `P` are used. -/
def Took (h sz : ℕ) (s₀ : HSt) (U : List Entry) (s : HSt) (P : List ℕ) : Prop :=
  ∃ K : List Entry, (K.map fun e => e.1 + 1).Perm P ∧ Owns h sz s₀ s (K ++ U)

/-- The addresses of used blocks after one of them is given back. -/
def freed (h sz : ℕ) (P : List ℕ) (a : ℕ) : List ℕ :=
  if a < freeBound h sz then P.erase a else P

namespace Took

lemma refl (ho : Owns h sz s₀ s U) : Took h sz s₀ U s [] := ⟨[], .refl _, ho⟩

lemma sound (ht : Took h sz s₀ U s P) : Sound h sz s := by
  obtain ⟨K, -, ho⟩ := ht
  exact ho.sound

lemma perm (ht : Took h sz s₀ U s P) (hP : P.Perm P') : Took h sz s₀ U s P' := by
  obtain ⟨K, h1, h2⟩ := ht
  exact ⟨K, h1.trans hP, h2⟩

lemma wrote (ht : Took h sz s₀ U s P) (hw : Wrote h sz W s s') : Took h sz s₀ U s' P := by
  obtain ⟨K, h1, h2⟩ := ht
  exact ⟨K, h1, (h2.users hw.live hw.rest).1⟩

lemma alloc (ht : Took h sz s₀ U s P) (hn : n + umdsSz < wordMod)
    (hr : s.alloc h n = some (s', a)) (h0 : a ≠ 0) : Took h sz s₀ U s' (a :: P) := by
  obtain ⟨K, h1, h2⟩ := ht
  obtain ⟨p, k, rfl, h3⟩ := h2.alloc hn hr h0
  exact ⟨(p, k) :: K, h1.cons _, h3⟩

/-- The block at one of the addresses. -/
lemma exists_block (ht : Took h sz s₀ U s P) (ha : a ∈ P) :
    ∃ p k K, a = p + 1 ∧ (K.map fun e : Entry => e.1 + 1).Perm (P.erase a) ∧
      ∃ L, (L.map fun e : Entry => e.1 + 1).Perm P ∧ L.Perm ((p, k) :: K) ∧
        Owns h sz s₀ s (L ++ U) := by
  obtain ⟨L, h1, h2⟩ := ht
  obtain ⟨⟨p, k⟩, h3, rfl⟩ := List.mem_map.mp (h1.symm.subset ha)
  have h4 := List.perm_cons_erase h3
  have h5 := (h4.map fun e : Entry => e.1 + 1).symm.trans h1
  exact ⟨p, k, _, rfl, (h5.trans (List.perm_cons_erase ha)).cons_inv, L, h1, h4, h2⟩

lemma free (ht : Took h sz s₀ U s P) (ha : a ∈ P) (hl : a ∈ s.live)
    (hr : s.free h a = some s') : Took h sz s₀ U s' (freed h sz P a) := by
  obtain ⟨p, k, K, rfl, h1, L, h2, h3, h4⟩ := ht.exists_block ha
  obtain ⟨s₁, h5, -, -, h6⟩ := h4.free (V := K ++ U) (h3.append_right U) hl
  obtain rfl := Option.some.inj (h5.symm.trans hr)
  unfold freed
  by_cases hlt : p + 1 < freeBound h sz
  · rw [if_pos hlt] at h6 ⊢
    exact ⟨K, h1, h6⟩
  · rw [if_neg hlt] at h6 ⊢
    exact ⟨L, h2, h6⟩

lemma realloc (ht : Took h sz s₀ U s P) (ha : a ∈ P) (hl : a ∈ s.live)
    (hn : n + umdsSz < wordMod) (hr : s.realloc h a n = some (s', b)) (h0 : b ≠ 0) :
    Took h sz s₀ U s' (b :: freed h sz P a) := by
  obtain ⟨p, k, K, rfl, h1, L, h2, h3, h4⟩ := ht.exists_block ha
  obtain ⟨q, l, rfl, h5⟩ := h4.realloc (V := K ++ U) (h3.append_right U) hl hn hr h0
  unfold freed
  by_cases hlt : p + 1 < freeBound h sz
  · rw [if_pos hlt] at h5 ⊢
    exact ⟨(q, l) :: K, h1.cons _, h5⟩
  · rw [if_neg hlt] at h5 ⊢
    exact ⟨(q, l) :: L, h2.cons _, h5⟩

end Took

/-! ### The heap as before -/

/-- The blocks that are allocated, their words and the header are as before; the root of the tree
of free blocks need not be. -/
structure Restored (h : ℕ) (s s' : HSt) : Prop where
  live : s'.live.Perm s.live
  words : Ext (fun _ _ => False) s s'
  header : ∀ x < h + hdsSz, x ≠ fmdsPtr h → s'.mem x = s.mem x

lemma Restored.refl (h : ℕ) (s : HSt) : Restored h s s := ⟨.refl _, .refl s, fun _ _ _ => rfl⟩

lemma Owns.restored (ho : Owns h sz s s U) (ho' : Owns h sz s s' V) (hV : V.Perm U)
    (hlive : s'.live.Perm s.live) (hx : Ext (fun _ _ => False) s s') : Restored h s s' := by
  refine ⟨hlive, hx, fun x hlt hne => ?_⟩
  by_cases hc : x ∈ headerCells h
  · obtain ⟨lost, t, hi⟩ := ho.inv
    obtain ⟨lost', t', hi'⟩ := ho'.inv
    simp only [headerCells, List.mem_cons, List.not_mem_nil, or_false] at hc
    rcases hc with rfl | rfl | rfl
    · exact absurd rfl hne
    · rw [hi.blocks.count, hi'.blocks.count, hV.length_eq]
    · rw [hi.blocks.words, hi'.blocks.words]
      exact (hV.map Prod.snd).sum_eq
  · exact ho'.header x hlt hc

/-- A block that has not been given back is counted. -/
lemma Owns.not_restored (ho : Owns h sz s s U) (ho' : Owns h sz s s' V)
    (hV : V.length ≠ U.length) : ¬ Restored h s s' := by
  intro hr
  obtain ⟨lost, t, hi⟩ := ho.inv
  obtain ⟨lost', t', hi'⟩ := ho'.inv
  have h1 := hr.header (trueNumAlloced h) (by unfold trueNumAlloced hdsSz; omega)
    (by unfold trueNumAlloced fmdsPtr; omega)
  rw [hi.blocks.count, hi'.blocks.count] at h1
  exact hV h1

/-- The header counts what was taken. -/
lemma Took.count (ho : Owns h sz s s U) (ht : Took h sz s U s' P) :
    s'.mem (trueNumAlloced h) = s.mem (trueNumAlloced h) + P.length := by
  obtain ⟨K, h1, h2⟩ := ht
  obtain ⟨lost, t, hi⟩ := ho.inv
  obtain ⟨lost', t', hi'⟩ := h2.inv
  rw [hi.blocks.count, hi'.blocks.count, List.length_append, ← h1.length_eq, List.length_map,
    Nat.add_comm]

lemma Took.eq_nil (ho : Owns h sz s s U) (ht : Took h sz s U s' P)
    (hheader : ∀ x < h + hdsSz, x ≠ fmdsPtr h → s'.mem x = s.mem x) : P = [] := by
  have hcount := hheader (trueNumAlloced h) (by unfold trueNumAlloced hdsSz; omega)
    (by unfold trueNumAlloced fmdsPtr; omega)
  rw [ht.count ho] at hcount
  exact List.length_eq_zero_iff.mp (by omega)

/-- The heap is as before exactly if nothing that was taken is still used. -/
lemma Took.restored_iff (ho : Owns h sz s s U) (ht : Took h sz s U s' P)
    (hlive : s'.live.Perm s.live) (hx : Ext (fun _ _ => False) s s') :
    Restored h s s' ↔ P = [] := by
  constructor
  · exact fun hr => ht.eq_nil ho hr.header
  · rintro rfl
    obtain ⟨K, h1, h2⟩ := ht
    obtain rfl := List.map_eq_nil_iff.mp (List.perm_nil.mp h1)
    exact ho.restored h2 (.refl _) hlive hx

/-- There is one block more, at the address `b`, and the header counts it; else the blocks, their
words and the header are as before but for the root of the tree of free blocks. -/
structure Gained (h : ℕ) (s s' : HSt) (b : ℕ) : Prop where
  live : s'.live.Perm (b :: s.live)
  words : Ext (fun _ _ => False) s s'
  count : s'.mem (trueNumAlloced h) = s.mem (trueNumAlloced h) + 1
  used : s'.mem (wordsUsed h) = s.mem (wordsUsed h) + (getMemSz s'.mem b + umdsSz)
  header : ∀ x < h + hdsSz, x ∉ headerCells h → s'.mem x = s.mem x

/-- There is one block more exactly if nothing else that was taken is still used. -/
lemma Took.gained_iff (ho : Owns h sz s s U) (ht : Took h sz s U s' (b :: P))
    (hlive : s'.live.Perm (b :: s.live)) (hx : Ext (fun _ _ => False) s s') :
    Gained h s s' b ↔ P = [] := by
  have hcount := ht.count ho
  rw [List.length_cons] at hcount
  constructor
  · intro hg
    have := hg.count
    exact List.length_eq_zero_iff.mp (by omega)
  · rintro rfl
    obtain ⟨K, h1, h2⟩ := ht
    obtain ⟨⟨p, k⟩, rfl, rfl⟩ := List.map_eq_singleton_iff.mp (List.perm_singleton.mp h1)
    obtain ⟨lost, t, hi⟩ := ho.inv
    obtain ⟨lost', t', hi'⟩ := h2.inv
    obtain ⟨h3, h4, -⟩ := hi'.getMemSz_eq (p := p) (k := k) (by simp)
    refine ⟨hlive, hx, hcount, ?_, h2.header⟩
    rw [hi.blocks.words, hi'.blocks.words, h3]
    simp only [FreeMerge.len, List.cons_append, List.nil_append, List.map_cons, List.sum_cons,
      umdsSz]
    omega

/-! ### One block -/

/-- The block at `a`, and no other, is used no longer. -/
def Frees (h sz : ℕ) (s s' : HSt) (a : ℕ) : Prop :=
  ∃ p k U V, a = p + 1 ∧ U.Perm ((p, k) :: V) ∧ Owns h sz s s U ∧ Owns h sz s s' V

/-- The block at `a`, and no other, is used besides those that were. -/
def Takes (h sz : ℕ) (s s' : HSt) (a : ℕ) : Prop :=
  ∃ p k U, a = p + 1 ∧ Owns h sz s s U ∧ Owns h sz s s' ((p, k) :: U)

/-- `free` gives a block back exactly if its address is below the bound. -/
lemma Owns.frees_iff (ho : Owns h sz s s U) (hU : U.Perm ((p, k) :: V))
    (ho' : Owns h sz s s' (if p + 1 < freeBound h sz then V else U)) :
    Frees h sz s s' (p + 1) ↔ p + 1 < freeBound h sz := by
  constructor
  · rintro ⟨q, l, U', V', -, hU', hs, hs'⟩
    by_contra hn
    rw [if_neg hn] at ho'
    -- the header would count the block, and not count it
    obtain ⟨lost₁, t₁, h1⟩ := ho.inv
    obtain ⟨lost₂, t₂, h2⟩ := ho'.inv
    obtain ⟨lost₃, t₃, h3⟩ := hs.inv
    obtain ⟨lost₄, t₄, h4⟩ := hs'.inv
    have h5 := hU'.length_eq
    have h6 := h1.blocks.count.symm.trans h3.blocks.count
    have h7 := h2.blocks.count.symm.trans h4.blocks.count
    rw [List.length_cons] at h5
    omega
  · intro hlt
    rw [if_pos hlt] at ho'
    exact ⟨p, k, U, V, rfl, hU, ho, ho'⟩

end LispMachine.Owned
