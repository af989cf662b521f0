import LispMachine.HeapInit

/-!
The runs of a heap: its initialisation, and what its users do from then on.

The invariant gives the accounts of the allocator, the shape of the tree of free blocks, and
what each operation does.
-/

namespace LispMachine.HeapRuns

open LispMachine.Memory LispMachine.AvlCode LispMachine.AvlRepr LispMachine.AvlInsert
open LispMachine.FreeTree LispMachine.FreeMerge LispMachine.Alloc LispMachine.HeapInv
open LispMachine.Heap LispMachine.Object LispMachine.HeapInit LispMachine.Lib.BalTree
open LispMachine.Lib.BalTree.BTree LispMachine.Lib.Segments LispMachine.Lib.Run

/-- The heap of `sz` words at `h`, an array, from a successful `init_heap` on. -/
def heapSystem (h sz : ℕ) (ok : ℕ → Prop) : System HSt where
  init s := h ≠ 0 ∧ h + sz < addrSpace ∧ ∃ m ty, initHeap m h sz = some (s, ty, h)
  step := HStep h sz ok

/-- The bound of `free` in the heap of `sz` words at `h`. -/
def freeBound (h sz : ℕ) : ℕ := padd h (8 * padd h sz)

/-- The used blocks: the header words before the allocated addresses. -/
def usedBlocks (s : HSt) : List Entry := s.live.map fun a => (a - 1, s.mem (a - 1))

variable {h sz : ℕ} {ok : ℕ → Prop} {s s' : HSt} {lost : List ℕ} {t : T} {U : List Entry}

/-! ### The invariant in the runs -/

lemma freeLimit_eq (hb : Blocks s.mem h sz t U) : freeLimit s.mem h = freeBound h sz := by
  rw [freeLimit, hb.heapEnd, freeBound, padd_eq hb.room]

/-- A step keeps the invariant, and no block is lost if the bound is above all the addresses
given back. -/
lemma inv_step (hi : Inv h sz s lost t U) (hs : HStep h sz ok s s') :
    ∃ lost' t' U', Inv h sz s' lost' t' U' ∧
      ((∀ a, ok a → a < freeBound h sz) → lost' = lost) := by
  have hlim := freeLimit_eq hi.blocks
  cases hs with
  | @alloc n a _ hn hs =>
    rcases hi.alloc hn with ⟨h1, -⟩ | ⟨s₁, p, v, k, rest, t', h1, -, -, h2⟩
    · obtain ⟨rfl, rfl⟩ := Prod.mk.inj (Option.some.inj (h1.symm.trans hs))
      exact ⟨lost, t, U, hi, fun _ => rfl⟩
    · obtain ⟨rfl, -⟩ := Prod.mk.inj (Option.some.inj (h1.symm.trans hs))
      exact ⟨lost, t', _, h2, fun _ => rfl⟩
  | @free a _ ha hok hs =>
    obtain ⟨s₁, t', V, p, k, h1, -, -, -, h2, -⟩ := hi.free ha
    obtain rfl := Option.some.inj (h1.symm.trans hs)
    exact ⟨_, t', V, h2, fun hlt => if_pos (hlim ▸ hlt a hok)⟩
  | @realloc a n a' _ ha hok hn hs =>
    rcases hi.realloc ha hn with ⟨h1, -⟩ | ⟨s₁, t', V, p, k, q, v, k', h1, h2⟩
    · obtain ⟨rfl, rfl⟩ := Prod.mk.inj (Option.some.inj (h1.symm.trans hs))
      exact ⟨lost, t, U, hi, fun _ => rfl⟩
    · obtain ⟨rfl, -⟩ := Prod.mk.inj (Option.some.inj (h1.symm.trans hs))
      obtain ⟨-, -, -, -, -, -, -, -, h3, -⟩ := h2
      exact ⟨_, t', V, h3, fun hlt => if_pos (hlim ▸ hlt a hok)⟩
  | @write a x v ha hx => exact ⟨lost, t, U, hi.write v ha hx, fun _ => rfl⟩
  | @other x v hx => exact ⟨lost, t, U, hi.other v hx, fun _ => rfl⟩

lemma inv_init (hs : (heapSystem h sz ok).init s) : ∃ t U, Inv h sz s [] t U := by
  obtain ⟨h0, hroom, m, ty, hs⟩ := hs
  rcases initHeap_fresh (m := m) hroom with ⟨-, h1 | ⟨b, h1, h2⟩⟩ | ⟨s₁, ty', c, h1, -, t, U, h2, -⟩
  · rw [h1] at hs
    exact absurd hs (by simp)
  · obtain rfl := Option.some.inj (h1.symm.trans hs)
    exact absurd h2 h0
  · obtain ⟨rfl, -⟩ := Prod.mk.inj (Option.some.inj (h1.symm.trans hs))
    exact ⟨t, U, h2⟩

/-- **The invariant** holds in every state of every run. -/
theorem inv_reachable (hs : (heapSystem h sz ok).Reachable s) :
    ∃ lost t U, Inv h sz s lost t U ∧ ((∀ a, ok a → a < freeBound h sz) → lost = []) := by
  have hinv : (heapSystem h sz ok).Invariant fun s => ∃ lost t U, Inv h sz s lost t U ∧
      ((∀ a, ok a → a < freeBound h sz) → lost = []) := by
    constructor
    · intro s hs
      obtain ⟨t, U, h1⟩ := inv_init hs
      exact ⟨[], t, U, h1, fun _ => rfl⟩
    · rintro s s' ⟨lost, t, U, h1, h2⟩ hs
      obtain ⟨lost', t', U', h3, h4⟩ := inv_step h1 hs
      exact ⟨lost', t', U', h3, fun hlt => (h4 hlt).trans (h2 hlt)⟩
  exact hinv.reachable hs

/-! ### The accounts -/

/-- No address is allocated twice. -/
lemma nodup_live (hi : Inv h sz s lost t U) : s.live.Nodup := by
  have h1 : (U.map fun e => e.1 + 1).Nodup := by
    refine List.pairwise_map.mpr ?_
    refine (List.pairwise_append.mp hi.blocks.part.apart).2.1.imp_of_mem fun {e f} he hf hc => ?_
    have h2 := hi.blocks.min e (by simp [he])
    have h3 := hi.blocks.min f (by simp [hf])
    unfold minAllocSz at h2 h3
    unfold Clear at hc
    omega
  exact (List.nodup_append.mp (hi.used.nodup_iff.mp h1)).1

/-- The free and the used blocks make up the heap, and the counters count the used ones. -/
structure Accounted (h sz : ℕ) (s : HSt) : Prop where
  part : ∃ t, Holds s.mem (fmdsPtr h) t ∧
    Partition (h + hdsSz) (h + sz) (t.toList ++ usedBlocks s)
  words : s.mem (wordsUsed h) = ((usedBlocks s).map Prod.snd).sum
  count : s.mem (trueNumAlloced h) = s.live.length

/-- No call with valid arguments faults or fails to return. -/
structure Returns (h : ℕ) (s : HSt) : Prop where
  alloc : ∀ n, n + umdsSz < wordMod → (s.alloc h n).isSome
  free : ∀ a ∈ s.live, (s.free h a).isSome
  realloc : ∀ a ∈ s.live, ∀ n, n + umdsSz < wordMod → (s.realloc h a n).isSome

lemma usedBlocks_perm (hi : Inv h sz s [] t U) : (usedBlocks s).Perm U := by
  have hU : (U.map fun e => e.1 + 1).map (fun a => (a - 1, s.mem (a - 1))) = U := by
    rw [List.map_map]
    refine (List.map_congr_left fun e he => ?_).trans U.map_id
    have := hi.blocks.header e he
    simp [this]
  have h1 := (hi.used.map fun a => (a - 1, s.mem (a - 1))).symm
  rwa [hU, List.append_nil] at h1

lemma Returns.of_inv (hi : Inv h sz s lost t U) : Returns h s := by
  refine ⟨fun n hn => ?_, fun a ha => ?_, fun a ha n hn => ?_⟩
  · rcases hi.alloc hn with ⟨h1, -⟩ | ⟨s₁, p, v, k, rest, t', h1, -⟩ <;> simp [h1]
  · obtain ⟨s₁, t', V, p, k, h1, -⟩ := hi.free ha
    simp [h1]
  · rcases hi.realloc ha hn with ⟨h1, -⟩ | ⟨s₁, t', V, p, k, q, v, k', h1, -⟩ <;> simp [h1]

/-- **The accounts** are right in every run in which the addresses given back are below the
bound of `free`. -/
theorem heap_accounted (hs : (heapSystem h sz (· < freeBound h sz)).Reachable s) :
    Accounted h sz s ∧ Returns h s := by
  obtain ⟨lost, t, U, hi, hl⟩ := inv_reachable hs
  obtain rfl := hl fun a ha => ha
  have hU := usedBlocks_perm hi
  have hb := hi.blocks
  refine ⟨⟨⟨t, hb.holds, hb.part.perm (hU.symm.append_left _)⟩, ?_, ?_⟩, .of_inv hi⟩
  · rw [hb.words, (hU.map Prod.snd).sum_eq]
    rfl
  · have := hU.length_eq
    rw [usedBlocks, List.length_map] at this
    rw [hb.count, this]

/-- The bound is above the addresses of a heap in the first ninth of the address space. -/
lemma lt_freeBound {a : ℕ} (hroom : h + 8 * (h + sz) < addrSpace) (ha : a < h + sz) :
    a < freeBound h sz := by
  rw [freeBound, padd_eq (n := sz) (by omega), padd_eq (by omega)]
  omega

/-! ### A heap that can be initialised -/

/-- A heap of `sz` words at `h` is large enough. -/
lemma exists_init (h0 : h ≠ 0) (hroom : h + sz < addrSpace) (hsz : 145 ≤ sz) (ok : ℕ → Prop) :
    ∃ s c, (heapSystem h sz ok).init s ∧ Fresh h sz c s (sz - 145) := by
  rcases initHeap_fresh (m := fun _ => 0) hroom with ⟨h1, -⟩ | ⟨s, ty, c, h1, h2⟩
  · omega
  · exact ⟨s, c, ⟨h0, hroom, _, ty, h1⟩, h2⟩

variable (h sz) in
/-- From such a heap a block is handed out. -/
lemma exists_live (h0 : h ≠ 0) (hroom : h + sz < addrSpace) (hsz : 160 ≤ sz) (ok : ℕ → Prop) :
    ∃ s a, (heapSystem h sz ok).Reachable s ∧ a ∈ s.live := by
  obtain ⟨s, c, h1, h2⟩ := exists_init h0 hroom (by omega) ok
  have hn : 4 + umdsSz < wordMod := by decide
  rcases h2.alloc hn with ⟨-, h3⟩ | ⟨s', a, h3, -, -, h4, -⟩
  · have hneed : need 4 = 5 := rfl
    unfold minAllocSz at h3
    omega
  · exact ⟨s', a, .step (.init h1) (.alloc hn h3), by simp [h4]⟩

/-- In a heap of a megabyte at the address `8` two blocks are handed out, the first is exchanged for
a larger one, and the second is given back. -/
theorem heap_accounted_low : ∃ (s₂ s₃ s₄ : HSt) (a b c : ℕ), a ∈ s₂.live ∧ b ∈ s₂.live ∧ b ≠ a ∧
    s₂.realloc 1 a 100 = some (s₃, c) ∧ c ≠ 0 ∧ s₃.free 1 b = some s₄ ∧
    Accounted 1 (2 ^ 17) s₂ ∧ Accounted 1 (2 ^ 17) s₃ ∧ Accounted 1 (2 ^ 17) s₄ ∧
    Returns 1 s₄ := by
  have hneed : need 4 = 5 := rfl
  have hneed' : need 100 = 101 := rfl
  have hbound {s : HSt} {lost : List ℕ} {t : T} {U : List Entry} {a : ℕ}
      (hi : Inv 1 (2 ^ 17) s lost t U) (ha : a ∈ s.live) : a < freeBound 1 (2 ^ 17) := by
    obtain ⟨p, k, V, rfl, hU, -⟩ := hi.exists_block ha
    obtain ⟨-, h2, -, h3⟩ := hi.getMemSz_eq (hU.symm.subset List.mem_cons_self)
    exact lt_freeBound (by decide) (by omega)
  obtain ⟨s₀, c₀, h₀, hf₀⟩ : ∃ s c, (heapSystem 1 (2 ^ 17) (· < freeBound 1 (2 ^ 17))).init s ∧
      Fresh 1 (2 ^ 17) c s (2 ^ 17 - 145) :=
    exists_init (by decide) (by decide) (by decide) (· < freeBound 1 (2 ^ 17))
  -- the blocks of four words
  rcases hf₀.alloc (n := 4) (by decide) with ⟨-, hno⟩ | ⟨s₁, a, ha, -, hf₁, hl₁, -⟩
  · unfold minAllocSz at hno
    omega
  rcases hf₁.alloc (n := 4) (by decide) with ⟨-, hno⟩ | ⟨s₂, b, hb, -, hf₂, hl₂, -⟩
  · unfold minAllocSz at hno
    omega
  have hs₂ := ((System.Reachable.init h₀).step (.alloc (n := 4) (by decide) ha)).step
    (.alloc (n := 4) (by decide) hb)
  rw [hl₁] at hl₂
  have haL : a ∈ s₂.live := by simp [hl₂]
  obtain ⟨-, t, U, hi, hr⟩ := hf₂
  obtain ⟨x, v, ht, hv⟩ := hr.resolve_left (by unfold minAllocSz; omega)
  unfold minAllocSz at hv
  rcases hi.realloc haL (n := 100) (by decide) with ⟨-, hno⟩ |
    ⟨s₃, t', V, p, k, q, w, k', hc, hl₃, -, -, -, -, -, -, -, hi₃, -⟩
  · have := hno (x, v) (by simp [ht])
    simp only at this
    omega
  have hs₃ := hs₂.step (.realloc haL (hbound hi haL) (by decide) hc)
  have hne : b ≠ a := fun h => by
    have := nodup_live hi
    rw [hl₂, h] at this
    exact (List.nodup_cons.mp this).1 List.mem_cons_self
  have hbL : b ∈ s₃.live := by
    rw [hl₃, hl₂]
    exact List.mem_cons_of_mem _ ((List.mem_erase_of_ne hne).mpr List.mem_cons_self)
  obtain ⟨s₄, t₄, V₄, p₄, k₄, hd, -⟩ := hi₃.free hbL
  have hs₄ := hs₃.step (.free hbL (hbound hi₃ hbL) hd)
  obtain ⟨hacc, hret⟩ := heap_accounted hs₄
  exact ⟨s₂, s₃, s₄, a, b, q + 1, haL, by simp [hl₂], hne, hc, by omega, hd, (heap_accounted hs₂).1,
    (heap_accounted hs₃).1, hacc, hret⟩

/-- The accounts are wrong in some run of the heap at the address `0xffff000000000000`: `free`
does nothing there. -/
theorem heap_not_accounted : ∃ s,
    (heapSystem (2 ^ 61 - 2 ^ 45) (2 ^ 17) fun _ => True).Reachable s ∧
      ¬ Accounted (2 ^ 61 - 2 ^ 45) (2 ^ 17) s := by
  obtain ⟨s, a, hs, ha⟩ := exists_live (2 ^ 61 - 2 ^ 45) (2 ^ 17) (by decide)
    (by decide) (by decide) fun _ => True
  obtain ⟨lost, t, U, hi, -⟩ := inv_reachable hs
  obtain ⟨p, k, V, rfl, hU, -⟩ := hi.exists_block ha
  have hp := (hi.getMemSz_eq (hU.symm.subset List.mem_cons_self)).2.2.1
  have hlim : freeLimit s.mem (2 ^ 61 - 2 ^ 45) ≤ p + 1 := by
    have hbound : freeBound (2 ^ 61 - 2 ^ 45) (2 ^ 17) ≤ 2 ^ 61 - 2 ^ 45 := by decide
    rw [freeLimit_eq hi.blocks]
    omega
  have hfree : s.free (2 ^ 61 - 2 ^ 45) (p + 1) = some ⟨s.mem, s.live.erase (p + 1)⟩ := by
    rw [HSt.free, (free_spec hi.blocks hU).1 hlim]
    rfl
  by_cases h1 : Accounted (2 ^ 61 - 2 ^ 45) (2 ^ 17) s
  · refine ⟨_, hs.step (.free ha trivial hfree), fun h2 => ?_⟩
    have h3 := h1.count
    have h4 := h2.count
    have h5 := List.length_erase_of_mem ha
    have h6 := List.length_pos_of_mem ha
    simp only at h4
    omega
  · exact ⟨s, hs, h1⟩

/-! ### The free tree -/

/-- **The free tree** has the shape of a search tree, its parent links and tags are right, its
blocks are long enough for a node, and no two of them touch. -/
theorem free_tree_shape (hs : (heapSystem h sz fun _ => True).Reachable s) :
    Returns h s ∧ ∃ t, Holds s.mem (fmdsPtr h) t ∧ Rising t.toList ∧
      (∀ e ∈ t.toList, minAllocSz ≤ e.2) ∧
      ∀ e ∈ t.toList, ∀ e' ∈ t.toList, e.1 + e.2 ≠ e'.1 := by
  obtain ⟨lost, t, U, hi, -⟩ := inv_reachable hs
  have hb := hi.blocks
  exact ⟨.of_inv hi, t, hb.holds, hb.rising, fun e he => hb.min e (by simp [he]), hb.merged⟩

theorem free_tree_shape_low : ∃ (s : HSt) (a : ℕ), a ∈ s.live ∧ ∃ t, Holds s.mem (fmdsPtr 1) t ∧
    Rising t.toList ∧ (∀ e ∈ t.toList, minAllocSz ≤ e.2) ∧
    ∀ e ∈ t.toList, ∀ e' ∈ t.toList, e.1 + e.2 ≠ e'.1 := by
  obtain ⟨s, a, hs, ha⟩ := exists_live 1 (2 ^ 17) (by decide) (by decide) (by decide)
    fun _ => True
  exact ⟨s, a, ha, (free_tree_shape hs).2⟩

/-! ### The operations -/

/-- The user's words at `b` are the same. -/
def Kept (m m' : Mem) (b : ℕ) : Prop :=
  getMemSz m' b = getMemSz m b ∧ ∀ i < getMemSz m b, m' (b + i) = m (b + i)

/-- The block at `a`, with its header, does not overlap that at `b`. -/
def BlocksDisjoint (m : Mem) (a b : ℕ) : Prop :=
  a + getMemSz m a ≤ b - umdsSz ∨ b + getMemSz m b ≤ a - umdsSz

/-- What is done outside a used block does not change its words. -/
lemma kept_of_local (hi : Inv h sz s lost t U) {L : List Seg} {q k : ℕ} {m' : Mem}
    (hq : (q, k) ∈ U) (hm : Local (headerCells h) L s.mem m')
    (hL : ∀ e ∈ L, Clear e (q, k)) : Kept s.mem m' (q + 1) := by
  obtain ⟨h1, h2, h3, h4⟩ := hi.getMemSz_eq hq
  have hin : ∀ i < k, m' (q + i) = s.mem (q + i) := fun i hik => by
    refine hm _ ?_ fun e he hin => ?_
    · simp only [headerCells, fmdsPtr, trueNumAlloced, wordsUsed, List.mem_cons,
        List.not_mem_nil, or_false]
      omega
    · have := hL e he
      unfold Clear In at *
      omega
  have h0 := hin 0 (by omega)
  have hroom := hi.blocks.room
  refine ⟨?_, fun i hik => ?_⟩
  · have hpsub : psub (q + 1) umdsSz = q := by
      rw [psub_eq (by simp [umdsSz]) (by omega)]
      rfl
    rw [getMemSz, getMemSz, hpsub]
    exact congrArg (wsub · umdsSz) h0
  · rw [h1] at hik
    have := hin (i + 1) (by omega)
    rwa [← Nat.add_assoc, Nat.add_right_comm] at this

lemma kept_live (hi : Inv h sz s lost t U) {a b p k : ℕ} {m' : Mem} (ha : a = p + 1)
    (hp : (p, k) ∈ U) (hm : Local (headerCells h) ((p, k) :: t.toList) s.mem m')
    (hb : b ∈ s.live) (hne : b ≠ a) : Kept s.mem m' b := by
  obtain ⟨q, k', V, rfl, hU, -⟩ := hi.exists_block hb
  have hq : (q, k') ∈ U := hU.symm.subset List.mem_cons_self
  refine kept_of_local hi hq hm (List.forall_mem_cons.mpr ⟨?_, fun e he => ?_⟩)
  · refine hi.blocks.clear (by simp [hp]) (by simp [hq]) fun heq => hne ?_
    rw [ha, (Prod.mk.inj heq).1]
  · exact hi.blocks.clear_used he hq

/-- The blocks of different addresses are disjoint. -/
lemma disjoint_live (hi : Inv h sz s lost t U) {a b : ℕ} (ha : a ∈ s.live) (hb : b ∈ s.live)
    (hne : b ≠ a) : BlocksDisjoint s.mem a b := by
  obtain ⟨p, k, V, rfl, hU, -⟩ := hi.exists_block ha
  obtain ⟨q, l, W, rfl, hW, -⟩ := hi.exists_block hb
  have hp : (p, k) ∈ U := hU.symm.subset List.mem_cons_self
  have hq : (q, l) ∈ U := hW.symm.subset List.mem_cons_self
  have h1 := hi.blocks.clear (e := (p, k)) (f := (q, l)) (by simp [hp]) (by simp [hq])
    fun heq => hne (by rw [(Prod.mk.inj heq).1])
  obtain ⟨h2, h3, -⟩ := hi.getMemSz_eq hp
  obtain ⟨h4, h5, -⟩ := hi.getMemSz_eq hq
  unfold Clear at h1
  unfold BlocksDisjoint umdsSz
  simp only at h1
  omega

/-- No free block is large enough for `n` words and the header. -/
def Full (t : T) (n : ℕ) : Prop := ∀ e ∈ t.toList, e.2 < max (n + umdsSz) minAllocSz

/-- What `alloc` does with a request for `n` words. -/
structure AllocSpec (t : T) (n : ℕ) (s s' : HSt) (a : ℕ) : Prop where
  null : a = 0 ↔ Full t n
  unchanged : a = 0 → s' = s
  size : a ≠ 0 → n ≤ getMemSz s'.mem a
  apart : a ≠ 0 → ∀ b ∈ s.live, BlocksDisjoint s'.mem a b
  kept : ∀ b ∈ s.live, Kept s.mem s'.mem b

/-- What `realloc` does with the block at `a` and a request for `n` words. -/
structure ReallocSpec (t : T) (a n : ℕ) (s s' : HSt) (a' : ℕ) : Prop where
  null : a' = 0 ↔ Full t n
  unchanged : a' = 0 → s' = s
  size : a' ≠ 0 → n ≤ getMemSz s'.mem a'
  copied : a' ≠ 0 → ∀ i < min (getMemSz s.mem a) n, s'.mem (a' + i) = s.mem (a + i)
  apart : a' ≠ 0 → ∀ b ∈ s.live, b ≠ a → BlocksDisjoint s'.mem a' b
  kept : ∀ b ∈ s.live, b ≠ a → Kept s.mem s'.mem b

lemma Kept.refl (m : Mem) (b : ℕ) : Kept m m b := ⟨rfl, fun _ _ => rfl⟩

lemma not_full {n : ℕ} {e : Entry} (he : e ∈ t.toList) (hn : need n ≤ e.2) : ¬ Full t n :=
  fun hf => absurd (hf e he) (not_lt.mpr hn)

lemma alloc_meets (hi : Inv h sz s lost t U) {n : ℕ} (hn : n + umdsSz < wordMod) :
    ∃ s' a, s.alloc h n = some (s', a) ∧ AllocSpec t n s s' a := by
  rcases hi.alloc hn with ⟨h1, h2⟩ | ⟨s', p, v, k, rest, t', h1, hg, h3, hi'⟩
  · exact ⟨s, 0, h1, ⟨fun _ => h2, fun _ => rfl⟩, fun _ => rfl, fun h0 => absurd rfl h0,
      fun h0 => absurd rfl h0, fun b _ => .refl _ b⟩
  · have hp : p + 1 ∈ s'.live := by simp [h3]
    have hfull : ¬ Full t n := not_full (hg.found.symm.subset List.mem_cons_self) hg.large
    have hk := hg.size.1
    refine ⟨s', p + 1, h1, ⟨fun h0 => absurd h0 (by omega), fun hf => absurd hf hfull⟩,
      fun h0 => absurd h0 (by omega), fun _ => ?_, fun _ b hb => ?_, fun b hb => ?_⟩
    · rw [(hi'.getMemSz_eq (p := p) (k := k) List.mem_cons_self).1]
      unfold need umdsSz at hk
      omega
    · refine disjoint_live hi' hp (by simp [h3, hb]) ?_
      have h4 := nodup_live hi'
      rw [h3] at h4
      rintro rfl
      exact (List.nodup_cons.mp h4).1 hb
    · obtain ⟨q, l, V, rfl, hU, -⟩ := hi.exists_block hb
      have hq : (q, l) ∈ U := hU.symm.subset List.mem_cons_self
      exact kept_of_local hi hq hg.keeps fun e he => hi.blocks.clear_used he hq

lemma free_meets (hi : Inv h sz s lost t U) {a : ℕ} (ha : a ∈ s.live) :
    ∃ s', s.free h a = some s' ∧ ∀ b ∈ s.live, b ≠ a → Kept s.mem s'.mem b := by
  obtain ⟨s', t', V, p, k, h1, -, h2, h3, -, h4, -⟩ := hi.free ha
  exact ⟨s', h1, fun b hb hne => kept_live hi h2 h3 h4 hb hne⟩

lemma realloc_meets (hi : Inv h sz s lost t U) {a n : ℕ} (ha : a ∈ s.live)
    (hn : n + umdsSz < wordMod) :
    ∃ s' a', s.realloc h a n = some (s', a') ∧ ReallocSpec t a n s s' a' := by
  rcases hi.realloc ha hn with ⟨h1, h2⟩ |
    ⟨s', t', V, p, k, q, v, k', h1, h2, h3, h4, h5, h6, h7, h8, h9, hi', h10, h11⟩
  · exact ⟨s, 0, h1, ⟨fun _ => h2, fun _ => rfl⟩, fun _ => rfl, fun h0 => absurd rfl h0,
      fun h0 => absurd rfl h0, fun h0 => absurd rfl h0, fun b _ _ => .refl _ b⟩
  · refine ⟨s', q + 1, h1, ⟨fun h0 => absurd h0 (by omega), fun hf => absurd hf (not_full h5 h6)⟩,
      fun h0 => absurd h0 (by omega), fun _ => ?_, fun _ i hlt => ?_, fun _ b hb hne => ?_,
      fun b hb hne => kept_live hi h3 h4 h11.1 hb hne⟩
    · rw [(hi'.getMemSz_eq h9).1]
      unfold need umdsSz at h7
      omega
    · refine h10 i ?_
      rwa [h3, (hi.getMemSz_eq h4).1] at hlt
    · have hb' : b ∈ s.live.erase a := (List.mem_erase_of_ne hne).mpr hb
      refine disjoint_live hi' (by simp [h2]) (by simp [h2, hb']) ?_
      have h12 := nodup_live hi'
      rw [h2] at h12
      rintro rfl
      exact (List.nodup_cons.mp h12).1 hb'

/-- **The operations** do what they are for, from every state of every run. -/
theorem heap_operations (hs : (heapSystem h sz fun _ => True).Reachable s) :
    ∃ t, Holds s.mem (fmdsPtr h) t ∧
      (∀ n, n + umdsSz < wordMod → ∃ s' a, s.alloc h n = some (s', a) ∧ AllocSpec t n s s' a) ∧
      (∀ a ∈ s.live, ∃ s', s.free h a = some s' ∧
        ∀ b ∈ s.live, b ≠ a → Kept s.mem s'.mem b) ∧
      ∀ a ∈ s.live, ∀ n, n + umdsSz < wordMod →
        ∃ s' a', s.realloc h a n = some (s', a') ∧ ReallocSpec t a n s s' a' := by
  obtain ⟨lost, t, U, hi, -⟩ := inv_reachable hs
  exact ⟨t, hi.blocks.holds, fun n hn => alloc_meets hi hn, fun a ha => free_meets hi ha,
    fun a ha n hn => realloc_meets hi ha hn⟩

theorem heap_operations_low : ∃ (s s' : HSt) (t : T) (a a' : ℕ),
    s.realloc 1 a 100 = some (s', a') ∧ ReallocSpec t a 100 s s' a' := by
  obtain ⟨s, a, hs, ha⟩ := exists_live 1 (2 ^ 17) (by decide) (by decide) (by decide)
    fun _ => True
  obtain ⟨t, -, -, -, h1⟩ := heap_operations hs
  obtain ⟨s', a', h2, h3⟩ := h1 a ha 100 (by decide)
  exact ⟨s, s', t, a, a', h2, h3⟩

/-! ### The search for the neighbours -/

/-- The free blocks lie around a block that is disjoint from them. -/
lemma around_of_disjoint {m : Mem} {addr size : ℕ} (hb : Blocks m h sz t U) (hsize : 0 < size)
    (hd : ∀ e ∈ t.toList, ∀ a, In a e → ¬ In a (addr, size)) :
    Around addr (addr + size) t.toList := by
  have hpos : ∀ e ∈ t.toList, 4 ≤ e.2 := fun e he => hb.min e (by simp [he])
  have hbound : ∀ e ∈ t.toList, e.1 + e.2 ≤ h + sz := fun e he =>
    (hb.part.bounds (s := e) (by simp [he])).2
  refine ⟨?_, fun e he => ?_, fun e he => ?_, fun e he => ?_, by omega⟩
  · refine hb.rising.imp_of_mem fun {e f} he hf hlt => ?_
    have hc := hb.clear (e := e) (f := f) (by simp [he]) (by simp [hf]) (by
      rintro rfl
      omega)
    have := hpos f hf
    unfold Clear at hc
    omega
  · have := hpos e he
    omega
  · -- the first word that the two blocks would share
    by_contra hc
    have h1 := hpos e he
    refine hd e he (max e.1 addr) ?_ ?_
    · unfold In
      omega
    · unfold In
      dsimp only
      omega
  · have := hbound e he
    have := hb.room
    omega

/-- **The search of `avl_merge`** ends with the free blocks that touch a block on its left and on
its right, for a block that no free block overlaps. -/
theorem merge_search_finds {m : Mem} {addr size : ℕ} (hb : Blocks m h sz t U)
    (hsize : 0 < size) (hroom : addr + size < addrSpace)
    (hd : ∀ e ∈ t.toList, ∀ a, In a e → ¬ In a (addr, size)) :
    ∃ left right,
      mergeSearch m addr (padd addr size) fuel (m.ptr (fmdsPtr h)) 0 0 = some (left, right) ∧
      ((∃ e ∈ t.toList, e.1 + e.2 = addr ∧ left = e.1) ∨
        left = 0 ∧ ∀ e ∈ t.toList, e.1 + e.2 ≠ addr) ∧
      ((∃ e ∈ t.toList, e.1 = addr + size ∧ right = e.1) ∨
        right = 0 ∧ ∀ e ∈ t.toList, e.1 ≠ addr + size) := by
  have hfuel := hb.fuel_lt
  obtain ⟨left, right, h1, h2, h3⟩ := mergeSearch_spec 0 0 hb.holds.zip.tree
    (around_of_disjoint hb hsize hd) (by omega : t.height < fuel) (by simp) (by simp)
  refine ⟨left, right, ?_, ?_, ?_⟩
  · rw [padd_eq hroom, ptr_of_eq hb.holds.zip.path]
    exact h1
  · exact h2.symm.imp id fun ⟨h4, h5⟩ => ⟨h4.symm, h5⟩
  · exact h3.symm.imp id fun ⟨h4, h5⟩ => ⟨h4.symm, h5⟩

/-- The search for a used block of the heap of a megabyte. -/
theorem merge_search_finds_low : ∃ (m : Mem) (t : T) (addr size left right : ℕ),
    mergeSearch m addr (padd addr size) fuel (m.ptr (fmdsPtr 1)) 0 0 = some (left, right) ∧
      ((∃ e ∈ t.toList, e.1 + e.2 = addr ∧ left = e.1) ∨
        left = 0 ∧ ∀ e ∈ t.toList, e.1 + e.2 ≠ addr) := by
  obtain ⟨s, a, hs, ha⟩ := exists_live 1 (2 ^ 17) (by decide) (by decide) (by decide)
    fun _ => True
  obtain ⟨lost, t, U, hi, -⟩ := inv_reachable hs
  obtain ⟨p, k, V, rfl, hU, -⟩ := hi.exists_block ha
  have hp : (p, k) ∈ U := hU.symm.subset List.mem_cons_self
  obtain ⟨-, hk, -, hend⟩ := hi.getMemSz_eq hp
  obtain ⟨left, right, h1, h2, -⟩ := merge_search_finds hi.blocks
    (show 0 < k by omega) (lt_of_le_of_lt hend (by decide)) fun e he x hx hx' => by
      have hc := hi.blocks.clear_used he hp
      unfold Clear at hc
      unfold In at hx hx'
      simp only at hc hx'
      omega
  exact ⟨s.mem, t, p, k, left, right, h1, h2⟩

end LispMachine.HeapRuns
