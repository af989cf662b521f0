import LispMachine.Object

/-!
The heap after its initialisation, and the invariant of its use.

While a heap is initialised nothing is given back, so the free words stay one block; as long as
it is large enough the allocations succeed.
-/

namespace LispMachine.HeapInit

open LispMachine.Memory LispMachine.AvlCode LispMachine.AvlRepr LispMachine.AvlInsert
open LispMachine.FreeTree LispMachine.FreeMerge LispMachine.Alloc LispMachine.HeapInv
open LispMachine.Heap LispMachine.Object LispMachine.Lib.BalTree LispMachine.Lib.BalTree.BTree
open LispMachine.Lib.Segments

/-- A heap of which nothing has been given back, with `c` as the pointer to the collector's set;
unless `r` is `0` it has one free block, of `r` words at least. -/
def Fresh (h sz c : ℕ) (s : HSt) (r : ℕ) : Prop :=
  s.mem (gcSet h) = c ∧ ∃ t U, Inv h sz s [] t U ∧
    (r = 0 ∨ ∃ x v, t.toList = [(x, v)] ∧ r ≤ v)

/-- The allocated blocks are the same. -/
structure Same (s s' : HSt) : Prop where
  live : s'.live = s.live
  memSz : ∀ a ∈ s.live, getMemSz s'.mem a = getMemSz s.mem a

lemma Same.trans {s s' s'' : HSt} (h : Same s s') (h' : Same s' s'') : Same s s'' :=
  ⟨h'.live.trans h.live, fun a ha => (h'.memSz a (h.live ▸ ha)).trans (h.memSz a ha)⟩

variable {h sz c r : ℕ} {s : HSt}

namespace Fresh

/-- The allocated blocks are large enough for a node. -/
lemma memSz (hf : Fresh h sz c s r) {a : ℕ} (ha : a ∈ s.live) :
    3 ≤ getMemSz s.mem a ∧ s.mem (a - 1) = getMemSz s.mem a + 1 ∧ h + 9 ≤ a ∧
      getMemSz s.mem a + 1 < addrSpace := by
  obtain ⟨-, t, U, hi, -⟩ := hf
  obtain ⟨p, k, V, rfl, hU, -⟩ := hi.exists_block ha
  have hp : (p, k) ∈ U := hU.symm.subset List.mem_cons_self
  obtain ⟨h1, h2, h3, h4⟩ := hi.getMemSz_eq hp
  have h5 := hi.blocks.header _ hp
  have h6 := hi.blocks.room
  simp only at h5
  rw [h1, Nat.add_sub_cancel, h5]
  omega

lemma write (hf : Fresh h sz c s r) {a x : ℕ} (v : ℕ) (ha : a ∈ s.live)
    (hx : a ≤ x ∧ x < a + getMemSz s.mem a) :
    Fresh h sz c (s.set x v) r ∧ Same s (s.set x v) := by
  have hlow := (hf.memSz ha).2.2.1
  obtain ⟨hc, t, U, hi, hr⟩ := hf
  have hi' := hi.write v ha hx
  refine ⟨⟨?_, t, U, hi', hr⟩, rfl, fun b hb => ?_⟩
  · rw [← hc]
    exact set_ne _ _ (by unfold gcSet; omega)
  · obtain ⟨p, k, V, rfl, hU, -⟩ := hi.exists_block hb
    have hp : (p, k) ∈ U := hU.symm.subset List.mem_cons_self
    rw [(hi'.getMemSz_eq hp).1, (hi.getMemSz_eq hp).1]

/-- One of the first three words of an allocated block is written. -/
lemma field (hf : Fresh h sz c s r) {a : ℕ} (i v : ℕ) (ha : a ∈ s.live) (hi : i < 3) :
    Fresh h sz c (s.set (a + i) v) r ∧ Same s (s.set (a + i) v) := by
  have := (hf.memSz ha).1
  exact hf.write v ha (by omega)

/-- The pointer to the collector's set is written. -/
lemma setGc (hf : Fresh h sz c s r) (o : ℕ) :
    Fresh h sz (8 * o) (s.setPtr (gcSet h) o) r := by
  obtain ⟨-, t, U, hi, hr⟩ := hf
  exact ⟨setPtr_self .., t, U, hi.other _ (by simp), hr⟩

/-- An allocation succeeds if the free block is large enough. -/
lemma alloc (hf : Fresh h sz c s r) {n : ℕ} (hn : n + umdsSz < wordMod) :
    (s.alloc h n = some (s, 0) ∧ r < need n + minAllocSz) ∨
    ∃ s' a, s.alloc h n = some (s', a) ∧ a ≠ 0 ∧ Fresh h sz c s' (r - (need n + minAllocSz)) ∧
      s'.live = a :: s.live ∧ need n ≤ getMemSz s'.mem a + 1 := by
  obtain ⟨hc, t, U, hi, hr⟩ := hf
  rcases hi.alloc hn with ⟨h1, h2⟩ | ⟨s', p, v, k, rest, t', h1, hg, h2, hi'⟩
  · refine .inl ⟨h1, ?_⟩
    unfold minAllocSz
    rcases hr with rfl | ⟨x, v, ht, hv⟩
    · omega
    · have := h2 (x, v) (by simp [ht])
      simp only at this
      omega
  · have hk := hg.size
    have hkk := hi'.getMemSz_eq (p := p) (k := k) (by simp)
    refine .inr ⟨s', p + 1, h1, by omega, ⟨?_, t', _, hi', ?_⟩, h2, by omega⟩
    · rw [← hc]
      refine hg.keeps _ (by simp [headerCells, gcSet, fmdsPtr, trueNumAlloced, wordsUsed])
        fun e he hin => ?_
      have := (hi.blocks.part.bounds (s := e) (by simp [he])).1
      unfold hdsSz at this
      unfold In gcSet at hin
      omega
    · by_cases hle : r ≤ need n + minAllocSz
      · exact .inl (by omega)
      · rcases hr with rfl | ⟨x, v', ht, hv⟩
        · omega
        · -- the only free block is cut
          have hfound := hg.found
          rw [ht] at hfound
          obtain ⟨h3, h4⟩ := List.cons.inj (List.singleton_perm.mp hfound).symm
          obtain ⟨rfl, rfl⟩ := Prod.mk.inj h3
          subst h4
          right
          have hcut := hg.cut
          generalize t'.toList = L at hcut ⊢
          cases hcut with
          | part h5 hp => exact ⟨_, _, List.perm_singleton.mp hp, by omega⟩
          | all h5 hp => omega

end Fresh

/-! ### Strings -/

/-- The object is allocated, with room for eight words of contents and `n` of them in use. -/
structure Str (s : HSt) (o n : ℕ) : Prop where
  live : o + 1 ∈ s.live
  room : 11 ≤ getMemSz s.mem (o + 1)
  size : s.mem (Object.size o) = n

lemma object_fresh {ty : ℕ} (hf : Fresh h sz c s r) (hty : ty = 0 ∨ ty + 1 ∈ s.live) :
    (∃ s', object h s ty 8 0 0 = some (s', 0) ∧ r < 16) ∨
    ∃ s' o, object h s ty 8 0 0 = some (s', o) ∧ o ≠ 0 ∧ Fresh h sz c s' (r - 16) ∧
      Str s' o 0 ∧ s.live ⊆ s'.live := by
  have h11 : wsub (wadd 8 objSz) 1 = 11 := by decide
  have hneed : need 11 = 12 := by decide
  rw [object, if_neg (by omega), h11]
  rcases hf.alloc (n := 11) (by decide) with ⟨h1, h2⟩ | ⟨s₁, a, h1, h2, h3, h4, h5⟩
  · rw [hneed] at h2
    exact .inl ⟨s, by rw [h1]; rfl, h2⟩
  · rw [hneed] at h3 h5
    obtain ⟨o, rfl⟩ : ∃ o, a = o + 1 := ⟨a - 1, by omega⟩
    have ha : o + 1 ∈ s₁.live := by simp [h4]
    have hlow := (h3.memSz ha).2.2.1
    rw [h1, Option.map_some]
    dsimp only
    rw [if_neg h2, Nat.add_sub_cancel]
    -- the writes of the fields, one after the other
    obtain ⟨f1, g1⟩ := h3.field 0 0 ha (by omega)
    obtain ⟨f2, g2⟩ := f1.field 1 (8 * ty) (g1.live ▸ ha) (by omega)
    have hinc : ∃ s₂, (if ty ≠ 0 then incRefcount ((s₁.set (refcount o) 0).setPtr (type o) ty) ty 1
        else (s₁.set (refcount o) 0).setPtr (type o) ty) = s₂ ∧ Fresh h sz c s₂ (r - 16) ∧
        Same s₁ s₂ := by
      by_cases h0 : ty = 0
      · exact ⟨_, rfl, by rw [if_neg (by simpa using h0)]; exact f2,
          by rw [if_neg (by simpa using h0)]; exact g1.trans g2⟩
      · have hmem : ty + 1 ∈ ((s₁.set (o + 1 + 0) 0).set (o + 1 + 1) (8 * ty)).live := by
          rw [g2.live, g1.live, h4]
          exact List.mem_cons_of_mem _ (hty.resolve_left h0)
        obtain ⟨f3, g3⟩ := f2.field 0 _ hmem (by omega)
        exact ⟨_, rfl, by rw [if_pos h0]; exact f3, by
          rw [if_pos h0]; exact (g1.trans g2).trans g3⟩
    obtain ⟨s₂, h6, f3, g3⟩ := hinc
    have ha₂ : o + 1 ∈ s₂.live := g3.live ▸ ha
    obtain ⟨f4, g4⟩ := f3.field 2 0 ha₂ (by omega)
    refine .inr ⟨_, o, ?_, by omega, f4, ⟨g4.live ▸ ha₂, ?_, set_self ..⟩, fun x hx => ?_⟩
    · rw [h6]; rfl
    · rw [g4.memSz _ ha₂, g3.memSz _ ha]
      omega
    · rw [g4.live, g3.live, h4]
      exact List.mem_cons_of_mem _ hx

lemma append_fresh {o n d : ℕ} (hf : Fresh h sz c s r) (ho : Str s o n) (h0 : o ≠ 0)
    (hn : n < 8) :
    ∃ s', objectAppendWord h s o d = some (s', o) ∧ Fresh h sz c s' r ∧ Str s' o (n + 1) ∧
      s'.live = s.live := by
  obtain ⟨h1, h2, h3, h4⟩ := hf.memSz ho.live
  rw [Nat.add_sub_cancel] at h2
  have hspace : addrSpace < wordMod := by decide
  have hroom := ho.room
  have hmax : ¬ wsub (s.mem o) objSz ≤ s.mem (size o) := by
    rw [h2, wsub_eq (by unfold objSz; omega) (by omega), ho.size]
    unfold objSz
    omega
  rw [objectAppendWord, if_neg h0]
  dsimp only
  rw [if_neg hmax, Option.map_some]
  dsimp only
  rw [if_neg h0]
  obtain ⟨f1, g1⟩ := hf.write (x := contents o n) d ho.live
    (by unfold contents; omega)
  have hsize : (s.set (contents o (s.mem (size o))) d).mem (size o) = n := by
    rw [ho.size, HSt.set]
    exact (set_ne _ _ (by unfold contents Object.size; omega)).trans ho.size
  have hlive : o + 1 ∈ (s.set (contents o n) d).live := g1.live ▸ ho.live
  obtain ⟨f2, g2⟩ := f1.field 2 (n + 1) hlive (by omega)
  have hspace : (8 : ℕ) < wordMod := by decide
  rw [hsize, wadd_eq (by omega), ho.size]
  refine ⟨_, rfl, f2, ⟨g2.live ▸ hlive, ?_, set_self ..⟩, ?_⟩
  · have h5 := g2.memSz _ hlive
    rw [g1.memSz _ ho.live] at h5
    exact hroom.trans h5.ge
  · exact g2.live.trans g1.live

lemma appendChars_null (s : HSt) (str : List ℕ) : appendChars h s 0 str = some (s, 0) := by
  induction str with
  | nil => rfl
  | cons a str ih => simpa [appendChars, objectAppendWord] using ih

lemma appendChars_fresh {o n : ℕ} {str : List ℕ} (hf : Fresh h sz c s r) (ho : Str s o n)
    (h0 : o ≠ 0) (hn : n + str.length ≤ 8) :
    ∃ s', appendChars h s o str = some (s', o) ∧ Fresh h sz c s' r ∧ o + 1 ∈ s'.live ∧
      s'.live = s.live := by
  induction str generalizing s n with
  | nil => exact ⟨s, rfl, hf, ho.live, rfl⟩
  | cons a str ih =>
    rw [List.length_cons] at hn
    obtain ⟨s₁, h1, h2, h3, h4⟩ := append_fresh (d := a) hf ho h0 (by omega)
    obtain ⟨s₂, g1, g2, g3, g4⟩ := ih h2 h3 (by omega)
    exact ⟨s₂, by rw [appendChars, h1]; exact g1, g2, g3, g4.trans h4⟩

/-- The string is allocated if there is room. -/
lemma string_fresh {ty : ℕ} (str : List ℕ) (hf : Fresh h sz c s r)
    (hty : ty = 0 ∨ ty + 1 ∈ s.live) (hn : str.length ≤ 8) :
    (∃ s', cstrToString h ty s str = some (s', 0) ∧ r < 16) ∨
    ∃ s' o, cstrToString h ty s str = some (s', o) ∧ o ≠ 0 ∧ Fresh h sz c s' (r - 16) ∧
      o + 1 ∈ s'.live ∧ s.live ⊆ s'.live := by
  rcases object_fresh hf hty with ⟨s₁, h1, h2⟩ | ⟨s₁, o, h1, h2, h3, h4, h5⟩
  · exact .inl ⟨s₁, by rw [cstrToString, h1]; exact appendChars_null s₁ str, h2⟩
  · obtain ⟨s₂, g1, g2, g3, g4⟩ := appendChars_fresh h3 h4 h2
      (by omega : 0 + str.length ≤ 8)
    exact .inr ⟨s₂, o, by rw [cstrToString, h1]; exact g1, h2, g2, g3, g4 ▸ h5⟩

/-- One line of `init_types`, followed by a computation that needs `k` more words. -/
lemma initType_bind {β : Type} {P : β → Prop} {ty k : ℕ} {str : String}
    {f : HSt × ℕ → Option β} (hf : Fresh h sz c s r) (hty : ty + 1 ∈ s.live)
    (hn : (chars str).length ≤ 8)
    (hk : ∀ s' o, Fresh h sz c s' (r - 16) → ty + 1 ∈ s'.live → o + 1 ∈ s'.live →
      s.live ⊆ s'.live → (f (s', o) = none ∧ r - 16 < k) ∨ ∃ b, f (s', o) = some b ∧ P b) :
    ((initType h ty s str).bind f = none ∧ r < k + 16) ∨
      ∃ b, (initType h ty s str).bind f = some b ∧ P b := by
  rcases string_fresh _ hf (.inr hty) hn with ⟨s₁, h1, h2⟩ | ⟨s₁, o, h1, h2, h3, h4, h5⟩
  · exact .inl ⟨by rw [initType, h1]; rfl, by omega⟩
  · obtain ⟨f1, g1⟩ := h3.field 0 (wadd (s₁.mem (refcount o)) 1) h4 (by omega)
    have hcode : initType h ty s str = some (incRefcount s₁ o 1, o) := by
      rw [initType, h1, Option.bind_some]
      dsimp only
      rw [if_neg h2]
    rw [hcode, Option.bind_some]
    rcases hk _ o f1 (g1.live ▸ h5 hty) (g1.live ▸ h4) (g1.live ▸ h5) with ⟨h6, h7⟩ | h6
    · exact .inl ⟨h6, by omega⟩
    · exact .inr h6

/-- `init_types` succeeds if there is room. -/
lemma initTypes_fresh (hf : Fresh h sz c s r) :
    (initTypes h s = none ∧ r < 128) ∨
    ∃ b, initTypes h s = some b ∧ Fresh h sz c b.1 (r - 128) ∧
      b.2.setType + 1 ∈ b.1.live ∧ s.live ⊆ b.1.live := by
  rcases string_fresh (chars "str") hf (.inl rfl) (by decide) with
    ⟨s₁, h1, h2⟩ | ⟨s₁, o, h1, h2, h3, h4, h5⟩
  · exact .inl ⟨by rw [initTypes, h1]; rfl, by omega⟩
  · obtain ⟨f1, g1⟩ := h3.field 1 (8 * o) h4 (by omega)
    obtain ⟨f2, g2⟩ := f1.field 0 (wadd ((s₁.set (o + 1 + 1) (8 * o)).mem (o + 1 + 0)) 2)
      (g1.live ▸ h4) (by omega)
    have hlive := g1.trans g2
    rw [initTypes, h1, Option.bind_some]
    dsimp only
    rw [if_neg h2]
    have hmore : ∀ {k : ℕ} {x : Option (HSt × Types)} {P : HSt × Types → Prop},
        ((x = none ∧ r - 16 < k) ∨ ∃ b, x = some b ∧ P b) → k + 16 ≤ 128 →
        (x = none ∧ r < 128) ∨ ∃ b, x = some b ∧ P b :=
      fun hx hk => hx.imp_left fun ⟨h6, h7⟩ => ⟨h6, by omega⟩
    refine hmore (k := 112) ?_ (by omega)
    refine initType_bind f2 (hlive.live ▸ h4) (by decide) fun s₂ num k2 a2 b2 c2 => ?_
    refine initType_bind k2 a2 (by decide) fun s₃ arr k3 a3 b3 c3 => ?_
    refine initType_bind k3 a3 (by decide) fun s₄ sar k4 a4 b4 c4 => ?_
    refine initType_bind k4 a4 (by decide) fun s₅ set k5 a5 b5 c5 => ?_
    refine initType_bind k5 a5 (by decide) fun s₆ fn k6 a6 b6 c6 => ?_
    refine initType_bind k6 a6 (by decide) fun s₇ cel k7 a7 b7 c7 => ?_
    refine initType_bind (k := 0) k7 a7 (by decide) fun s₈ bco k8 a8 b8 c8 => ?_
    refine .inr ⟨_, rfl, ?_, c8 (c7 (c6 b5)), fun x hx => ?_⟩
    · have : r - 16 - 16 - 16 - 16 - 16 - 16 - 16 - 16 = r - 128 := by omega
      rwa [this] at k8
    · exact c8 (c7 (c6 (c5 (c4 (c3 (c2 (hlive.live ▸ h5 hx)))))))

/-! ### The header -/

/-- Inserting the node that the root pointer points to already only writes the node. -/
lemma insert_self {m : Mem} {tr nd v : ℕ} (h0 : nd ≠ 0) (hr : m.ptr tr = nd) :
    avlInsertNode avlBasicCmp m tr nd v = some (writeNode m nd 3 0 0 v, 1) := by
  obtain ⟨k, hk⟩ : ∃ k, fuel = k + 1 := ⟨fuel - 1, by decide⟩
  have hsearch : insertSearch avlBasicCmp (writeNode m nd 3 0 0 v) nd fuel nd 0 0 = some (0, 0) := by
    rw [hk]
    simp [insertSearch, h0, avlBasicCmp]
  simp only [avlInsertNode, hr, h0, if_false, hsearch, Option.bind_some, if_true]

/-- The new heap is one free block. -/
lemma header_fresh {m : Mem} (hroom : h + sz < addrSpace) (hsz : minAllocSz + hdsSz ≤ sz) :
    ∃ m', initHeader m h sz = some m' ∧ Fresh h sz (m' (gcSet h)) ⟨m', []⟩ (sz - 8) := by
  have hspace : addrSpace < wordMod := by decide
  unfold minAllocSz hdsSz at hsz
  rw [initHeader]
  dsimp only
  generalize hm : ((((((m.set (heapEnd h) (8 * padd h sz)).set (prev h) 0).set (next h) 0).setPtr
    (fmdsPtr h) (padd h hdsSz)).set (trueNumAlloced h) 0).set (gcNumAlloced h) 0).set
    (wordsUsed h) 0 = m₀
  have hend : m₀ (heapEnd h) = 8 * (h + sz) := by
    rw [← hm]
    simp [set_apply, setPtr_apply, heapEnd, prev, next, fmdsPtr, trueNumAlloced, gcNumAlloced,
      wordsUsed, padd_eq hroom]
  have htr : m₀ (fmdsPtr h) = 8 * (h + 8) := by
    rw [← hm]
    simp [set_apply, fmdsPtr, trueNumAlloced, gcNumAlloced, wordsUsed, hdsSz,
      padd_eq (show h + 8 < addrSpace by omega)]
  have hcount : m₀ (trueNumAlloced h) = 0 := by
    rw [← hm]
    simp [set_apply, trueNumAlloced, gcNumAlloced, wordsUsed]
  have hwords : m₀ (wordsUsed h) = 0 := by
    rw [← hm]
    simp
  have hout : ∀ a, a < h + 8 → writeNode m₀ (h + 8) 3 0 0 (sz - 8) a = m₀ a := fun a ha =>
    writeNode_out _ _ _ _ _ (by
      rintro ⟨x, hx, h1, -⟩
      simp only [List.mem_singleton] at hx
      omega)
  have hptr : m₀.ptr (fmdsPtr h) = h + 8 := ptr_of_eq htr
  rw [hptr, wsub_eq (by unfold hdsSz; omega) (by omega), hdsSz, insert_self (by omega) hptr]
  refine ⟨_, rfl, rfl, .node 0 .nil (h + 8, sz - 8) .nil, [], ⟨?_, by simp⟩,
    .inr ⟨h + 8, sz - 8, by simp [toList], le_rfl⟩⟩
  have hlist : (BTree.node 0 .nil (h + 8, sz - 8) .nil : T).toList ++ [] = [(h + 8, sz - 8)] := by
    simp [toList]
  refine ⟨⟨⟨⟨by omega, ?_, ?_, ?_, ?_, trivial, trivial⟩, ?_, ?_⟩, by simp [BTree.Balanced]⟩, ?_, ?_, ?_,
    ?_, by simp, ?_, ?_, ?_, hroom, hsz⟩
  · simp [writeNode_apply, revBalanceFactor]
  · simp [writeNode_apply, root]
  · simp [writeNode_apply, root]
  · simp [writeNode_apply]
  · exact (hout _ (by unfold fmdsPtr; omega)).trans htr
  · refine ⟨by simp [addrs], ?_⟩
    rintro ⟨x, hx, h1, -⟩
    simp only [addrs, pathAddrs_nil, List.nil_append, List.append_nil, List.mem_singleton] at hx
    unfold fmdsPtr at h1
    omega
  · simp [Rising, toList]
  · rw [hlist]
    have h1 := Partition.single (a := h + hdsSz) (e := h + sz) (by unfold hdsSz; omega)
    have h2 : h + sz - (h + hdsSz) = sz - 8 := by unfold hdsSz; omega
    rwa [h2] at h1
  · rw [hlist]
    simp only [List.mem_singleton, forall_eq]
    unfold minAllocSz
    omega
  · simp only [toList, List.nil_append, List.mem_singleton, forall_eq]
    omega
  · exact (hout _ (by unfold trueNumAlloced; omega)).trans hcount
  · exact (hout _ (by unfold wordsUsed; omega)).trans hwords
  · exact (hout _ (by unfold heapEnd; omega)).trans hend

/-- **Initialisation**: the heap is too small, or the allocations need more room, or the
invariant holds of the heap. -/
theorem initHeap_fresh {m : Mem} (hroom : h + sz < addrSpace) :
    (sz < 145 ∧ (initHeap m h sz = none ∨ ∃ b, initHeap m h sz = some b ∧ b.2.2 = 0)) ∨
    ∃ s ty c, initHeap m h sz = some (s, ty, h) ∧ Fresh h sz c s (sz - 145) := by
  rw [initHeap]
  by_cases hsz : sz < minAllocSz + hdsSz
  · rw [if_pos hsz]
    unfold minAllocSz hdsSz at hsz
    exact .inl ⟨by omega, .inr ⟨_, rfl, rfl⟩⟩
  · rw [if_neg hsz]
    obtain ⟨m₁, h1, hf⟩ := header_fresh (m := m) hroom (by omega)
    rw [h1, Option.bind_some]
    have h4 : 1 + objSz - 1 = 4 := rfl
    have hneed : need 4 = 5 := by decide
    rw [h4]
    rcases hf.alloc (n := 4) (by decide) with ⟨h2, h3⟩ | ⟨s₁, a, h2, h3, h5, h6, h7⟩
    · rw [hneed] at h3
      unfold minAllocSz at h3
      exact .inl ⟨by omega, .inl (by rw [h2]; rfl)⟩
    · obtain ⟨o, rfl⟩ : ∃ o, a = o + 1 := ⟨a - 1, by omega⟩
      rw [hneed] at h5 h7
      have ha : o + 1 ∈ s₁.live := by simp [h6]
      rw [h2, Option.bind_some]
      dsimp only
      rw [if_neg h3, Nat.add_sub_cancel]
      -- the object of the collector's set
      obtain ⟨f1, g1⟩ := h5.field 0 1 ha (by omega)
      obtain ⟨f2, g2⟩ := f1.field 2 1 (g1.live ▸ ha) (by omega)
      obtain ⟨f3, g3⟩ := f2.write (x := o + 4 + 0) 0 (g2.live ▸ g1.live ▸ ha) (by
        rw [g2.memSz _ (g1.live ▸ ha), g1.memSz _ ha]
        omega)
      have hlive := (g1.trans g2).trans g3
      have f4 := f3.setGc o
      have hr : sz - 8 - (5 + minAllocSz) = sz - 17 := by unfold minAllocSz; omega
      rw [hr] at f4
      rcases initTypes_fresh f4 with ⟨h8, h9⟩ | ⟨b, h8, h9, h10, h11⟩
      · refine .inl ⟨by omega, .inl ?_⟩
        exact Option.map_eq_none_iff.mpr h8
      · have ha' : o + 1 ∈ b.1.live := h11 (hlive.live ▸ ha)
        have hgc : b.1.mem.ptr (gcSet h) = o := ptr_of_eq h9.1
        obtain ⟨f5, g5⟩ := h9.field 1 (8 * b.2.setType) ha' (by omega)
        obtain ⟨f6, -⟩ := f5.field 0 (wadd ((b.1.set (o + 1 + 1) (8 * b.2.setType)).mem
          (b.2.setType + 1 + 0)) 1) (g5.live ▸ h10) (by omega)
        have hr' : sz - 17 - 128 = sz - 145 := by omega
        rw [hr'] at f6
        refine .inr ⟨incRefcount (b.1.set (o + 1 + 1) (8 * b.2.setType)) b.2.setType 1, b.2, 8 * o,
          Option.map_eq_some_iff.mpr ⟨b, h8, ?_⟩, f6⟩
        rw [hgc]
        rfl

end LispMachine.HeapInit
