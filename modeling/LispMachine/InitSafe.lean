import LispMachine.HeapFrame

/-!
How large a heap must be for its initialisation: exactly 109 words, though `init_heap` asks for
12 of them only.

Nothing is given back in between, so that the free words are one block of a known length.
-/

namespace LispMachine.InitSafe

open LispMachine.Memory LispMachine.AvlCode LispMachine.AvlRepr LispMachine.Alloc
open LispMachine.AvlInsert LispMachine.FreeTree LispMachine.HeapInv LispMachine.Heap
open LispMachine.HeapRuns LispMachine.HeapFrame LispMachine.Object LispMachine.HeapInit
open LispMachine.Lib.BalTree
open LispMachine.Lib.BalTree.BTree LispMachine.Lib.Segments

/-- The objects of the types. -/
def allTypes (ty : Types) : List ℕ :=
  [ty.stringType, ty.numType, ty.arrayType, ty.subarrayType, ty.setType, ty.functionType,
    ty.cellType, ty.bcodeType]

/-- The object `o` is allocated in the heap, and its type is `ty`. -/
structure Typed (h sz : ℕ) (s : HSt) (o ty : ℕ) : Prop where
  live : o + 1 ∈ s.live
  inside : h + hdsSz ≤ o ∧ o + 1 + getMemSz s.mem (o + 1) ≤ h + sz
  type : s.mem (type o) = 8 * ty

/-- The heap is ready: the allocator's invariant holds, and the set of the collector and the
objects of the types, nine of them, are there. -/
structure Ready (h sz : ℕ) (s : HSt) (ty : Types) : Prop where
  inv : ∃ t U, Inv h sz s [] t U
  gcSet : Typed h sz s (s.mem.ptr (gcSet h)) ty.setType
  types : ∀ o ∈ allTypes ty, Typed h sz s o ty.stringType
  nodup : (s.mem.ptr (Alloc.gcSet h) :: allTypes ty).Nodup

/-- `init_heap` returns, with null or with a heap that is ready, and does not write outside of
the heap. -/
def Safe (m : Mem) (h sz : ℕ) : Prop :=
  ∃ s ty a, initHeap m h sz = some (s, ty, a) ∧ (a = 0 ∨ a = h ∧ Ready h sz s ty) ∧
    ∀ x, x < h ∨ h + sz ≤ x → s.mem x = m x

/-- What is left of `r` free words after a request for `k`. -/
def left (r k : ℕ) : ℕ := if k + minAllocSz ≤ r then r - k else 0

lemma left_lt {r k n : ℕ} (hr : n ≤ r) (hk : k = 0 ∨ 4 ≤ k) : left r n < k ↔ r < k + n := by
  unfold left minAllocSz
  split_ifs <;> omega

/-- A heap that is being initialised: `r` free words in one block, the objects of `L` with the words
of their types, and `c` as the word of the collector's set. -/
structure Begun (h sz : ℕ) (m : Mem) (c : ℕ) (L : List (ℕ × ℕ)) (r : ℕ) (s : HSt) : Prop where
  free : ∃ t U, Inv h sz s [] t U ∧ (r = 0 ∧ t.toList = [] ∨ ∃ x, t.toList = [(x, r)])
  outside : ∀ x, x < h ∨ h + sz ≤ x → s.mem x = m x
  gc : s.mem (gcSet h) = c
  live : ∀ e ∈ L, e.1 + 1 ∈ s.live
  type : ∀ e ∈ L, s.mem (type e.1) = e.2
  nodup : (L.map Prod.fst).Nodup

variable {h sz c r : ℕ} {m : Mem} {L : List (ℕ × ℕ)} {s : HSt}

namespace Begun

lemma sound (hb : Begun h sz m c L r s) : Sound h sz s := by
  obtain ⟨t, U, hi, -⟩ := hb.free
  exact ⟨[], t, U, hi⟩

lemma memSz (hb : Begun h sz m c L r s) {a : ℕ} (ha : a ∈ s.live) :
    3 ≤ getMemSz s.mem a ∧ s.mem (a - 1) = getMemSz s.mem a + 1 ∧ h + 9 ≤ a ∧
      a + getMemSz s.mem a ≤ h + sz ∧ h + sz < addrSpace := by
  obtain ⟨t, U, hi, -⟩ := hb.free
  obtain ⟨p, k, V, rfl, hU, -⟩ := hi.exists_block ha
  have hp : (p, k) ∈ U := hU.symm.subset List.mem_cons_self
  obtain ⟨h1, h2, h3, h4⟩ := hi.getMemSz_eq hp
  have h5 := hi.blocks.header _ hp
  have h6 := hi.blocks.room
  simp only at h5
  rw [h1, Nat.add_sub_cancel, h5]
  omega

/-- A word of a block is written that holds no type. -/
lemma write (hb : Begun h sz m c L r s) {a i : ℕ} (v : ℕ) (ha : a ∈ s.live)
    (hi : i < getMemSz s.mem a) (hne : ∀ e ∈ L, a = e.1 + 1 → i ≠ 1) :
    Begun h sz m c L r (s.set (a + i) v) ∧ Same s (s.set (a + i) v) := by
  obtain ⟨h1, -, h2, h3, -⟩ := hb.memSz ha
  have hsound := hb.sound
  obtain ⟨t, U, hinv, hr⟩ := hb.free
  have hm : ∀ x, (∀ b ∈ s.live, ∀ j < getMemSz s.mem b, x ≠ b + j) →
      s.mem.set (a + i) v x = s.mem x := fun x hx => set_ne _ _ (hx a ha i hi)
  obtain ⟨h4, h5⟩ := Inv.users hinv hm
  refine ⟨⟨⟨t, U, h4, hr⟩, fun x hx => ?_, ?_, hb.live, fun e he => ?_, hb.nodup⟩, rfl, h5⟩
  · exact (set_ne _ _ (by omega)).trans (hb.outside x hx)
  · exact (set_ne _ _ (by unfold gcSet; omega)).trans hb.gc
  · refine (set_ne _ _ fun heq => ?_).trans (hb.type e he)
    have h6 := (hb.memSz (hb.live e he)).1
    obtain ⟨h7, h8⟩ := hsound.word_inj (hb.live e he) ha (i := 1) (by omega) hi heq
    exact hne e he h7.symm h8.symm

/-- The type of a new object is written. -/
lemma link (hb : Begun h sz m c L r s) {o : ℕ} (ty : ℕ) (ho : o + 1 ∈ s.live)
    (hne : o ∉ L.map Prod.fst) :
    Begun h sz m c ((o, 8 * ty) :: L) r (s.setPtr (Object.type o) ty) ∧
      Same s (s.setPtr (Object.type o) ty) := by
  obtain ⟨h1, h2⟩ := hb.write (i := 1) (8 * ty) ho (by have := (hb.memSz ho).1; omega)
    fun e he heq => absurd (List.mem_map.mpr ⟨e, he, by omega⟩) hne
  refine ⟨⟨h1.free, h1.outside, h1.gc, fun e he => ?_, fun e he => ?_, ?_⟩, h2⟩
  · rcases List.mem_cons.mp he with rfl | he
    · exact ho
    · exact h1.live e he
  · rcases List.mem_cons.mp he with rfl | he
    · exact setPtr_self ..
    · exact h1.type e he
  · exact List.nodup_cons.mpr ⟨hne, hb.nodup⟩

/-- An object that is there already. -/
lemma note (hb : Begun h sz m c L r s) {o : ℕ} (ho : o + 1 ∈ s.live)
    (hne : o ∉ L.map Prod.fst) :
    Begun h sz m c ((o, s.mem (Object.type o)) :: L) r s :=
  ⟨hb.free, hb.outside, hb.gc, List.forall_mem_cons.mpr ⟨ho, hb.live⟩,
    List.forall_mem_cons.mpr ⟨rfl, hb.type⟩, List.nodup_cons.mpr ⟨hne, hb.nodup⟩⟩

lemma sublist (hb : Begun h sz m c L r s) {L' : List (ℕ × ℕ)} (hL : L'.Sublist L) :
    Begun h sz m c L' r s :=
  ⟨hb.free, hb.outside, hb.gc, fun e he => hb.live e (hL.subset he),
    fun e he => hb.type e (hL.subset he), hb.nodup.sublist (hL.map _)⟩

/-- The pointer to the collector's set is written. -/
lemma setGc (hb : Begun h sz m c L r s) (o : ℕ) :
    Begun h sz m (8 * o) L r (s.setPtr (gcSet h) o) := by
  obtain ⟨t, U, hi, hr⟩ := hb.free
  have hsz := hi.blocks.size
  unfold minAllocSz hdsSz at hsz
  refine ⟨⟨t, U, hi.other _ (by simp), hr⟩, fun x hx => ?_, setPtr_self .., hb.live,
    fun e he => ?_, hb.nodup⟩
  · exact (setPtr_ne _ _ (by unfold gcSet; omega)).trans (hb.outside x hx)
  · have := (hb.memSz (hb.live e he)).2.2.1
    refine (setPtr_ne _ _ ?_).trans (hb.type e he)
    unfold gcSet Object.type
    omega

/-- An allocation, exactly. -/
lemma alloc (hb : Begun h sz m c L r s) {n : ℕ} (hn : n + umdsSz < wordMod) :
    (r < need n → s.alloc h n = some (s, 0)) ∧
    (need n ≤ r → ∃ s' o, s.alloc h n = some (s', o + 1) ∧
      Begun h sz m c L (left r (need n)) s' ∧ s'.live = (o + 1) :: s.live ∧
      need n ≤ getMemSz s'.mem (o + 1) + 1 ∧ o ∉ L.map Prod.fst) := by
  have hneed : 0 < need n := by unfold need minAllocSz; omega
  have hsound := hb.sound
  obtain ⟨t, U, hi, hr⟩ := hb.free
  rcases hi.alloc hn with ⟨h1, h2⟩ | ⟨s', p, v, k, rest, t', h1, hg, h2, hi'⟩
  · refine ⟨fun _ => h1, fun hle => ?_⟩
    rcases hr with ⟨rfl, -⟩ | ⟨x, ht⟩
    · omega
    · have := h2 (x, r) (by simp [ht])
      simp only at this
      omega
  · have hfound := hg.found
    -- the only free block is the one that is cut
    obtain ⟨rfl, rfl⟩ : v = r ∧ rest = [] := by
      rcases hr with ⟨-, ht⟩ | ⟨x, ht⟩
      · rw [ht] at hfound
        exact absurd hfound.length_eq (by simp)
      · rw [ht] at hfound
        obtain ⟨h3, h4⟩ := List.cons.inj (List.singleton_perm.mp hfound).symm
        exact ⟨(Prod.mk.inj h3).2, h4⟩
    have hlarge := hg.large
    refine ⟨fun hlt => by omega, fun _ => ⟨s', p, h1, ⟨⟨t', _, hi', ?_⟩, fun x hx => ?_, ?_,
      fun e he => ?_, fun e he => ?_, hb.nodup⟩, h2, ?_, fun hp => ?_⟩⟩
    · have hcut := hg.cut
      unfold left
      generalize t'.toList = L' at hcut ⊢
      cases hcut with
      | part h5 hp => exact .inr ⟨_, by rw [if_pos h5]; exact List.perm_singleton.mp hp⟩
      | all h5 hp => exact .inl ⟨if_neg (by omega), List.perm_nil.mp hp⟩
    · refine (hg.keeps x ?_ fun e he hin => ?_).trans (hb.outside x hx)
      · have hsz := hi.blocks.size
        unfold minAllocSz hdsSz at hsz
        simp only [headerCells, fmdsPtr, trueNumAlloced, wordsUsed, List.mem_cons,
          List.not_mem_nil, or_false]
        omega
      · have := hi.blocks.part.bounds (s := e) (by simp [he])
        unfold hdsSz at this
        unfold In at hin
        omega
    · refine (hg.keeps _ (by simp [headerCells, gcSet, fmdsPtr, trueNumAlloced, wordsUsed])
        fun e he hin => ?_).trans hb.gc
      have := (hi.blocks.part.bounds (s := e) (by simp [he])).1
      unfold hdsSz at this
      unfold In gcSet at hin
      omega
    · exact h2 ▸ List.mem_cons_of_mem _ (hb.live e he)
    · have h3 := (alloc_ext hsound hn h1 (by omega)).2.1
      have h4 := (hb.memSz (hb.live e he)).1
      exact (h3 _ (hb.live e he) 1 (by omega) id).word.trans (hb.type e he)
    · have := (hi'.getMemSz_eq (p := p) (k := k) (by simp)).1
      have := hg.size.1
      omega
    · obtain ⟨e, he, rfl⟩ := List.mem_map.mp hp
      have h3 := nodup_live hi'
      rw [h2] at h3
      exact (List.nodup_cons.mp h3).1 (hb.live e he)

end Begun

/-! ### The objects of the types -/

/-- The object of the string of type `ty` with eight words of room, `n` of them in use. -/
lemma object_begun {ty : ℕ} (hb : Begun h sz m c L r s) (hty : ty = 0 ∨ ty + 1 ∈ s.live) :
    (r < 12 → object h s ty 8 0 0 = some (s, 0)) ∧
    (12 ≤ r → ∃ s' o, object h s ty 8 0 0 = some (s', o) ∧ o ≠ 0 ∧
      Begun h sz m c ((o, 8 * ty) :: L) (left r 12) s' ∧ Str s' o 0 ∧ s.live ⊆ s'.live) := by
  have h11 : wsub (wadd 8 objSz) 1 = 11 := by decide
  have hneed : need 11 = 12 := by decide
  obtain ⟨halloc, halloc'⟩ := hb.alloc (n := 11) (by decide)
  rw [hneed] at halloc halloc'
  rw [object, if_neg (by omega), h11]
  refine ⟨fun hr => by rw [halloc hr]; rfl, fun hr => ?_⟩
  obtain ⟨s₁, o, h1, b1, h2, h3, h4⟩ := halloc' hr
  have ho : o + 1 ∈ s₁.live := by simp [h2]
  have hlow := (b1.memSz ho).2.2.1
  rw [h1, Option.map_some]
  dsimp only
  rw [if_neg (by omega), Nat.add_sub_cancel]
  -- the writes of the fields, one after the other
  obtain ⟨b2, g2⟩ := b1.write (i := 0) 0 ho (by omega) fun e _ _ => by omega
  obtain ⟨b3, g3⟩ := b2.link ty (g2.live ▸ ho) h4
  have g13 := g2.trans g3
  have hinc : ∃ s₂, (if ty ≠ 0 then incRefcount ((s₁.set (refcount o) 0).setPtr (type o) ty) ty 1
      else (s₁.set (refcount o) 0).setPtr (type o) ty) = s₂ ∧
      Begun h sz m c ((o, 8 * ty) :: L) (left r 12) s₂ ∧ Same s₁ s₂ := by
    by_cases h0 : ty = 0
    · exact ⟨_, if_neg (by simpa using h0), b3, g13⟩
    · have hmem : ty + 1 ∈ ((s₁.set (o + 1 + 0) 0).setPtr (type o) ty).live := by
        rw [g13.live, h2]
        exact List.mem_cons_of_mem _ (hty.resolve_left h0)
      obtain ⟨b4, g4⟩ := b3.write (i := 0) _ hmem (by have := (b3.memSz hmem).1; omega)
        fun e _ _ => by omega
      exact ⟨_, if_pos h0, b4, g13.trans g4⟩
  obtain ⟨s₂, h5, b4, g4⟩ := hinc
  have ho₂ : o + 1 ∈ s₂.live := g4.live ▸ ho
  obtain ⟨b5, g5⟩ := b4.write (i := 2) 0 ho₂ (by have := (b4.memSz ho₂).1; omega)
    fun e _ _ => by omega
  refine ⟨_, o, ?_, by omega, b5, ⟨g5.live ▸ ho₂, ?_, set_self ..⟩, fun x hx => ?_⟩
  · rw [h5]; rfl
  · rw [g5.memSz _ ho₂, g4.memSz _ ho]
    omega
  · rw [g5.live, g4.live, h2]
    exact List.mem_cons_of_mem _ hx

lemma append_begun {o n d : ℕ} (hb : Begun h sz m c L r s) (ho : Str s o n) (h0 : o ≠ 0)
    (hn : n < 8) :
    ∃ s', objectAppendWord h s o d = some (s', o) ∧ Begun h sz m c L r s' ∧ Str s' o (n + 1) ∧
      s'.live = s.live := by
  obtain ⟨h1, h2, h3, h4, h5⟩ := hb.memSz ho.live
  rw [Nat.add_sub_cancel] at h2
  have hspace : addrSpace < wordMod := by decide
  have hroom := ho.room
  have hmax : ¬ wsub (s.mem o) objSz ≤ s.mem (size o) := by
    rw [h2, wsub_eq (by unfold objSz; omega) (by omega), ho.size]
    unfold objSz
    omega
  rw [objectAppendWord, if_neg h0]
  dsimp only
  rw [if_neg hmax, Option.map_some]
  dsimp only
  rw [if_neg h0]
  have hword : contents o n = o + 1 + (3 + n) := by unfold contents; omega
  obtain ⟨b1, g1⟩ := hb.write (i := 3 + n) d ho.live (by omega) fun e _ _ => by omega
  rw [← hword] at b1 g1
  have hsize : (s.set (contents o (s.mem (size o))) d).mem (size o) = n := by
    rw [ho.size, HSt.set]
    exact (set_ne _ _ (by unfold contents Object.size; omega)).trans ho.size
  have hlive : o + 1 ∈ (s.set (contents o n) d).live := g1.live ▸ ho.live
  obtain ⟨b2, g2⟩ := b1.write (i := 2) (n + 1) hlive (by have := (b1.memSz hlive).1; omega)
    fun e _ _ => by omega
  have hspace : (8 : ℕ) < wordMod := by decide
  rw [hsize, wadd_eq (by omega), ho.size]
  refine ⟨_, rfl, b2, ⟨g2.live ▸ hlive, ?_, set_self ..⟩, g2.live.trans g1.live⟩
  have h6 := g2.memSz _ hlive
  rw [g1.memSz _ ho.live] at h6
  exact hroom.trans h6.ge

lemma appendChars_begun {o n : ℕ} {str : List ℕ} (hb : Begun h sz m c L r s) (ho : Str s o n)
    (h0 : o ≠ 0) (hn : n + str.length ≤ 8) :
    ∃ s', appendChars h s o str = some (s', o) ∧ Begun h sz m c L r s' ∧ s'.live = s.live := by
  induction str generalizing s n with
  | nil => exact ⟨s, rfl, hb, rfl⟩
  | cons a str ih =>
    rw [List.length_cons] at hn
    obtain ⟨s₁, h1, h2, h3, h4⟩ := append_begun (d := a) hb ho h0 (by omega)
    obtain ⟨s₂, g1, g2, g3⟩ := ih h2 h3 (by omega)
    exact ⟨s₂, by rw [appendChars, h1]; exact g1, g2, g3.trans h4⟩

/-- The string is allocated if there is room, and only then. -/
lemma string_begun {ty : ℕ} (str : List ℕ) (hb : Begun h sz m c L r s)
    (hty : ty = 0 ∨ ty + 1 ∈ s.live) (hn : str.length ≤ 8) :
    (r < 12 → ∃ s', cstrToString h ty s str = some (s', 0)) ∧
    (12 ≤ r → ∃ s' o, cstrToString h ty s str = some (s', o) ∧ o ≠ 0 ∧
      Begun h sz m c ((o, 8 * ty) :: L) (left r 12) s' ∧ o + 1 ∈ s'.live ∧ s.live ⊆ s'.live) := by
  obtain ⟨hobj, hobj'⟩ := object_begun hb hty
  refine ⟨fun hr => ⟨s, ?_⟩, fun hr => ?_⟩
  · rw [cstrToString, hobj hr]
    exact appendChars_null s str
  · obtain ⟨s₁, o, h1, h2, b1, h3, h4⟩ := hobj' hr
    obtain ⟨s₂, h5, b2, h6⟩ := appendChars_begun b1 h3 h2 (by omega : 0 + str.length ≤ 8)
    refine ⟨s₂, o, ?_, h2, b2, h6 ▸ h3.live, h6 ▸ h4⟩
    rw [cstrToString, h1]
    exact h5

/-- One line of `init_types`, followed by a computation that needs `k` more words. -/
lemma initType_begun {β : Type} {P : β → Prop} {ty k : ℕ} {str : String}
    {f : HSt × ℕ → Option β} (hb : Begun h sz m c L r s) (hty : ty + 1 ∈ s.live)
    (hn : (chars str).length ≤ 8) (hk : k = 0 ∨ 4 ≤ k)
    (hf : ∀ s' o, Begun h sz m c ((o, 8 * ty) :: L) (left r 12) s' → ty + 1 ∈ s'.live →
      (left r 12 < k → f (s', o) = none) ∧
      (k ≤ left r 12 → ∃ b, f (s', o) = some b ∧ P b)) :
    (r < k + 12 → (initType h ty s str).bind f = none) ∧
    (k + 12 ≤ r → ∃ b, (initType h ty s str).bind f = some b ∧ P b) := by
  obtain ⟨hstr, hstr'⟩ := string_begun (chars str) hb (.inr hty) hn
  by_cases hr : r < 12
  · obtain ⟨s₁, h1⟩ := hstr hr
    exact ⟨fun _ => by rw [initType, h1]; rfl, fun hle => by omega⟩
  · obtain ⟨s₁, o, h1, h2, b1, h3, h4⟩ := hstr' (by omega)
    obtain ⟨b2, g2⟩ := b1.write (i := 0) (wadd (s₁.mem (refcount o)) 1) h3
      (by have := (b1.memSz h3).1; omega) fun e _ _ => by omega
    have hcode : initType h ty s str = some (incRefcount s₁ o 1, o) := by
      rw [initType, h1, Option.bind_some]
      dsimp only
      rw [if_neg h2]
    obtain ⟨h5, h6⟩ := hf _ o b2 (g2.live ▸ h4 hty)
    rw [hcode, Option.bind_some]
    have hleft := left_lt (r := r) (n := 12) (by omega) hk
    exact ⟨fun hlt => h5 (hleft.mpr hlt), fun hle => h6 (not_lt.mp fun hlt =>
      absurd (hleft.mp hlt) (not_lt.mpr hle))⟩

/-- The objects of the types with their own types, the last one first. -/
def links (ty : Types) : List (ℕ × ℕ) :=
  (allTypes ty).reverse.map fun o => (o, 8 * ty.stringType)

/-- `init_types` succeeds if there is room, and only then. -/
lemma initTypes_begun (hb : Begun h sz m c L r s) :
    (r < 96 → initTypes h s = none) ∧
    (96 ≤ r → ∃ b, initTypes h s = some b ∧ ∃ r', Begun h sz m c (links b.2 ++ L) r' b.1) := by
  obtain ⟨hstr, hstr'⟩ := string_begun (chars "str") hb (.inl rfl) (by decide)
  by_cases hr : r < 12
  · obtain ⟨s₁, h1⟩ := hstr hr
    exact ⟨fun _ => by rw [initTypes, h1]; rfl, fun hle => by omega⟩
  · obtain ⟨s₁, o, h1, h2, b1, h3, h4⟩ := hstr' (by omega)
    have hnot := (List.nodup_cons.mp b1.nodup).1
    obtain ⟨b2, g2⟩ := (b1.sublist (List.sublist_cons_self ..)).link o h3 hnot
    obtain ⟨b3, g3⟩ := b2.write (i := 0) (wadd ((s₁.setPtr (type o) o).mem (o + 1 + 0)) 2)
      (g2.live ▸ h3) (by have := (b2.memSz (g2.live ▸ h3)).1; omega) fun e _ _ => by omega
    have hlive := g2.trans g3
    rw [initTypes, h1, Option.bind_some]
    dsimp only
    rw [if_neg h2]
    have hmore : ∀ {x : Option (HSt × Types)} {P : HSt × Types → Prop},
        (left r 12 < 84 → x = none) ∧ (84 ≤ left r 12 → ∃ b, x = some b ∧ P b) →
        (r < 96 → x = none) ∧ (96 ≤ r → ∃ b, x = some b ∧ P b) := by
      rintro x P ⟨h5, h6⟩
      have hleft := left_lt (r := r) (k := 84) (n := 12) (by omega) (by omega)
      exact ⟨fun hlt => h5 (hleft.mpr hlt), fun hle => h6 (not_lt.mp fun hlt =>
        absurd (hleft.mp hlt) (not_lt.mpr hle))⟩
    refine hmore ?_
    refine initType_begun (k := 72) b3 (hlive.live ▸ h3) (by decide) (by omega)
      fun s₂ num k2 a2 => ?_
    refine initType_begun (k := 60) k2 a2 (by decide) (by omega) fun s₃ arr k3 a3 => ?_
    refine initType_begun (k := 48) k3 a3 (by decide) (by omega) fun s₄ sar k4 a4 => ?_
    refine initType_begun (k := 36) k4 a4 (by decide) (by omega) fun s₅ set k5 a5 => ?_
    refine initType_begun (k := 24) k5 a5 (by decide) (by omega) fun s₆ fn k6 a6 => ?_
    refine initType_begun (k := 12) k6 a6 (by decide) (by omega) fun s₇ cel k7 a7 => ?_
    refine initType_begun (k := 0) k7 a7 (by decide) (by omega) fun s₈ bco k8 a8 => ?_
    exact ⟨fun hlt => absurd hlt (Nat.not_lt_zero _), fun _ => ⟨_, rfl, _, k8⟩⟩

/-! ### The whole initialisation -/

/-- The header and the only free block. -/
lemma header_begun (hroom : h + sz < addrSpace) (hsz : minAllocSz + hdsSz ≤ sz) :
    ∃ m' c, initHeader m h sz = some m' ∧ Begun h sz m c [] (sz - 8) ⟨m', []⟩ := by
  obtain ⟨m', h1, hgc, t, U, hi, hr⟩ := header_fresh (m := m) hroom hsz
  unfold minAllocSz hdsSz at hsz
  refine ⟨m', _, h1, ⟨t, U, hi, .inr ?_⟩, fun x hx => ?_, hgc, by simp, by simp, by simp⟩
  · obtain ⟨x, v, ht, hv⟩ := hr.resolve_left (by omega)
    have hb := hi.blocks.part.bounds (s := (x, v)) (by simp [ht])
    unfold hdsSz at hb
    obtain rfl : v = sz - 8 := by simp only at hb; omega
    exact ⟨x, ht⟩
  · have hpadd : padd h hdsSz = h + 8 := padd_eq (by unfold hdsSz; omega)
    have hspace : addrSpace < wordMod := by decide
    have hptr : ∀ m₀ : Mem, m₀ (fmdsPtr h) = 8 * (h + 8) → m₀.ptr (fmdsPtr h) = h + 8 :=
      fun m₀ hm => ptr_of_eq hm
    rw [initHeader] at h1
    dsimp only at h1
    rw [hptr _ (by simp [set_apply, fmdsPtr, trueNumAlloced, gcNumAlloced,
      wordsUsed, hpadd]), insert_self (by omega) (hptr _ (by simp [set_apply,
      fmdsPtr, trueNumAlloced, gcNumAlloced, wordsUsed, hpadd])), Option.map_some] at h1
    obtain rfl := Option.some.inj h1
    refine (writeNode_out _ _ _ _ _ ?_).trans ?_
    · rintro ⟨y, hy, h2, h3⟩
      simp only [List.mem_singleton] at hy
      omega
    · simp only [set_apply, setPtr_apply, wordsUsed, gcNumAlloced, trueNumAlloced, fmdsPtr, next,
        prev, Alloc.heapEnd]
      repeat rw [if_neg (by omega)]

/-- What has been initialised when the last type is linked. -/
lemma Begun.ready {o : ℕ} {ty : Types}
    (hb : Begun h sz m (8 * o) ((o, 8 * ty.setType) :: links ty) r s) : Ready h sz s ty := by
  have hptr : s.mem.ptr (gcSet h) = o := ptr_of_eq hb.gc
  have htyped : ∀ x w, (x, 8 * w) ∈ (o, 8 * ty.setType) :: links ty → Typed h sz s x w :=
    fun x w hx => by
      have hlive := hb.live _ hx
      have h1 := hb.memSz hlive
      simp only at h1
      exact ⟨hlive, by unfold hdsSz; omega, hb.type _ hx⟩
  have hmap : (links ty).map Prod.fst = (allTypes ty).reverse := by
    simp [links, List.map_map, Function.comp_def]
  obtain ⟨t, U, hi, -⟩ := hb.free
  refine ⟨⟨t, U, hi⟩, ?_, fun x hx => htyped x _ ?_, ?_⟩
  · rw [hptr]
    exact htyped o _ List.mem_cons_self
  · exact List.mem_cons_of_mem _ (List.mem_map.mpr ⟨x, List.mem_reverse.mpr hx, rfl⟩)
  · have h1 := hb.nodup
    rw [List.map_cons, hmap] at h1
    rw [hptr]
    exact ((List.reverse_perm _).cons o).nodup_iff.mp h1

/-- **`init_heap`** from 12 words on. -/
lemma initHeap_begun (hroom : h + sz < addrSpace) (hsz : 12 ≤ sz) :
    (sz < 109 → initHeap m h sz = none) ∧
    (109 ≤ sz → ∃ s ty, initHeap m h sz = some (s, ty, h) ∧ Ready h sz s ty ∧
      ∀ x, x < h ∨ h + sz ≤ x → s.mem x = m x) := by
  have hmin : ¬ sz < minAllocSz + hdsSz := not_lt.mpr hsz
  obtain ⟨m', c, h1, hb⟩ := header_begun (m := m) hroom (not_lt.mp hmin)
  have hneed : need 4 = 5 := by decide
  obtain ⟨halloc, halloc'⟩ := hb.alloc (n := 4) (by decide)
  rw [hneed] at halloc halloc'
  rw [initHeap, if_neg hmin, h1, Option.bind_some, show 1 + objSz - 1 = 4 from rfl]
  by_cases hr : sz - 8 < 5
  · refine ⟨fun _ => by rw [halloc hr]; rfl, fun hle => by omega⟩
  · obtain ⟨s₁, o, h2, b1, h3, h4, h5⟩ := halloc' (by omega)
    have ho : o + 1 ∈ s₁.live := by simp [h3]
    rw [h2, Option.bind_some]
    dsimp only
    rw [if_neg (by omega), Nat.add_sub_cancel]
    -- the object of the collector's set
    obtain ⟨b2, g2⟩ := b1.write (i := 0) 1 ho (by omega) (by simp)
    obtain ⟨b3, g3⟩ := b2.write (i := 2) 1 (g2.live ▸ ho) (by rw [g2.memSz _ ho]; omega) (by simp)
    have g23 := g2.trans g3
    obtain ⟨b4, g4⟩ := b3.write (i := 3) 0 (g23.live ▸ ho) (by rw [g23.memSz _ ho]; omega)
      (by simp)
    have g24 := g23.trans g4
    have b5 := (b4.setGc o).note (o := o) (g24.live ▸ ho) h5
    obtain ⟨hty, hty'⟩ := initTypes_begun b5
    have hleft := left_lt (r := sz - 8) (k := 96) (n := 5) (by omega) (by omega)
    refine ⟨fun hlt => Option.map_eq_none_iff.mpr (hty (hleft.mpr (by omega))), fun hle => ?_⟩
    obtain ⟨b, h6, r', b6⟩ := hty' (not_lt.mp fun hlt => absurd (hleft.mp hlt) (by omega))
    have hgc : b.1.mem.ptr (gcSet h) = o := ptr_of_eq b6.gc
    have hnodup := b6.nodup
    rw [List.map_append] at hnodup
    have hnot : o ∉ (links b.2).map Prod.fst := fun hm =>
      (List.nodup_append.mp hnodup).2.2 o hm o (by simp) rfl
    have hset : (b.2.setType, 8 * b.2.stringType) ∈ links b.2 := by simp [links, allTypes]
    have hset' := b6.live _ (List.mem_append_left _ hset)
    obtain ⟨b7, g7⟩ := (b6.sublist (List.sublist_append_left ..)).link b.2.setType
      (b6.live _ (List.mem_append_right _ List.mem_cons_self)) hnot
    obtain ⟨b8, -⟩ := b7.write (i := 0) (wadd ((b.1.setPtr (type o) b.2.setType).mem
      (b.2.setType + 1 + 0)) 1) (g7.live ▸ hset')
      (by have := (b7.memSz (g7.live ▸ hset')).1; omega) fun e _ _ => by omega
    refine ⟨_, b.2, Option.map_eq_some_iff.mpr ⟨b, h6, rfl⟩, ?_, ?_⟩
    · rw [hgc]
      exact b8.ready
    · rw [hgc]
      exact b8.outside

lemma safe_of_small (h12 : sz < 12) : Safe m h sz :=
  ⟨_, _, _, by rw [initHeap, if_pos (by unfold minAllocSz hdsSz; omega)], .inl rfl,
    fun _ _ => rfl⟩

lemma not_safe (h12 : 12 ≤ sz) (h109 : sz < 109) (hroom : h + sz < addrSpace) :
    ¬ Safe m h sz := by
  rintro ⟨s, ty, a, h1, -⟩
  rw [(initHeap_begun hroom h12).1 h109] at h1
  exact absurd h1 (by simp)

/-- The heap of `init_heap` is null only if it is too small for one node. -/
lemma initHeap_start {s : HSt} {ty : Types} {a : ℕ} (h12 : 12 ≤ sz)
    (hi : initHeap m h sz = some (s, ty, a)) : a = h := by
  rw [initHeap, if_neg (by unfold minAllocSz hdsSz; omega)] at hi
  obtain ⟨m₁, -, hi⟩ := Option.bind_eq_some_iff.mp hi
  obtain ⟨p, -, hi⟩ := Option.bind_eq_some_iff.mp hi
  dsimp only at hi
  split_ifs at hi
  obtain ⟨b, -, hi⟩ := Option.map_eq_some_iff.mp hi
  exact (Prod.mk.inj (Prod.mk.inj hi).2).2.symm

/-- **Initialisation is safe** for a heap that is refused at once, and for one that the address
space holds and that has room for the nine objects. -/
theorem initHeap_safe_iff (m : Mem) (h sz : ℕ) (h0 : h ≠ 0) :
    Safe m h sz ↔ sz < 12 ∨ 109 ≤ sz ∧ h + sz < addrSpace := by
  constructor
  · intro hs
    by_contra hn
    have hroom : ¬ h + sz < addrSpace := fun hroom =>
      not_safe (by omega) (by omega) hroom hs
    obtain ⟨s, ty, a, h1, h2 | ⟨-, h2⟩, -⟩ := hs
    · exact h0 ((initHeap_start (by omega) h1).symm.trans h2)
    · obtain ⟨t, U, hi⟩ := h2.inv
      exact hroom hi.blocks.room
  · rintro (h12 | ⟨h109, hroom⟩)
    · exact safe_of_small h12
    · obtain ⟨s, ty, h1, h2, h3⟩ := (initHeap_begun (m := m) hroom (by omega)).2 h109
      exact ⟨s, ty, h, h1, .inr ⟨rfl, h2⟩, h3⟩

theorem initHeap_safe_page : Safe (fun _ => 0) 512 512 :=
  (initHeap_safe_iff (fun _ => 0) 512 512 (by decide)).mpr (.inr ⟨by decide, by decide⟩)

/-- A heap of 64 words at the address `4096`. -/
theorem initHeap_not_safe : ¬ ∀ (m : Mem) (h sz : ℕ), h ≠ 0 → h + sz < addrSpace → Safe m h sz :=
  fun hs => not_safe (by decide) (by decide) (by decide)
    (hs (fun _ => 0) 512 64 (by decide) (by decide))

end LispMachine.InitSafe
