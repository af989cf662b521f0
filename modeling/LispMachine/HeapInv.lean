import LispMachine.Alloc
import LispMachine.FreeMerge

/-!
What holds of a heap: the free blocks in the tree and the used blocks make up its words.
-/

namespace LispMachine.HeapInv

open LispMachine.Memory LispMachine.AvlCode LispMachine.AvlRepr LispMachine.AvlRotate
open LispMachine.AvlInsert LispMachine.AvlTree LispMachine.FreeTree LispMachine.FreeMerge
open LispMachine.Alloc LispMachine.Lib.BalTree LispMachine.Lib.BalTree.BTree
open LispMachine.Lib.Segments

/-- The heap of `sz` words at `h` has the free blocks of the tree `t` and the used blocks
`U`. -/
structure Blocks (m : Mem) (h sz : ℕ) (t : T) (U : List Entry) : Prop where
  holds : Holds m (fmdsPtr h) t
  rising : Rising t.toList
  part : Partition (h + hdsSz) (h + sz) (t.toList ++ U)
  min : ∀ e ∈ t.toList ++ U, minAllocSz ≤ e.2
  merged : ∀ e ∈ t.toList, ∀ e' ∈ t.toList, e.1 + e.2 ≠ e'.1
  header : ∀ e ∈ U, m e.1 = e.2
  count : m (trueNumAlloced h) = U.length
  words : m (wordsUsed h) = len U
  heapEnd : m (heapEnd h) = 8 * (h + sz)
  room : h + sz < addrSpace
  size : minAllocSz + hdsSz ≤ sz

/-- Only the cells of `C` and words of the segments of `L` differ. -/
def Local (C : List ℕ) (L : List Seg) (m m' : Mem) : Prop :=
  ∀ a, a ∉ C → (∀ s ∈ L, ¬ In a s) → m' a = m a

lemma Local.trans {C : List ℕ} {L : List Seg} {m m' m'' : Mem} (h : Local C L m m')
    (h' : Local C L m' m'') : Local C L m m'' :=
  fun a h1 h2 => (h' a h1 h2).trans (h a h1 h2)

lemma Local.mono {C C' : List ℕ} {L L' : List Seg} {m m' : Mem} (h : Local C L m m')
    (hC : C ⊆ C') (hL : ∀ a, ∀ s ∈ L, In a s → ∃ s ∈ L', In a s) : Local C' L' m m' := by
  intro a h1 h2
  refine h a (fun hc => h1 (hC hc)) fun s hs ha => ?_
  obtain ⟨s', hs', ha'⟩ := hL a s hs ha
  exact h2 s' hs' ha'

/-- The cells of the header that the operations write. -/
def headerCells (h : ℕ) : List ℕ := [fmdsPtr h, trueNumAlloced h, wordsUsed h]

variable {m : Mem} {h sz : ℕ} {t : T} {U : List Entry}

/-- Segments of four words at least do not overlap as nodes either. -/
lemma sep_of_partition {r a e : ℕ} {L : List Seg} (hL : Partition a e L)
    (h4 : ∀ s ∈ L, minAllocSz ≤ s.2) (hr : r < a) : Sep r (L.map Prod.fst) := by
  unfold minAllocSz at h4
  refine ⟨List.pairwise_map.mpr (hL.apart.imp_of_mem fun {s s'} hs hs' hc => ?_), ?_⟩
  · have := h4 s hs
    have := h4 s' hs'
    unfold Clear at hc
    unfold Apart
    omega
  · rintro ⟨p, hp, h1, -⟩
    obtain ⟨s, hs, rfl⟩ := List.mem_map.mp hp
    have := (hL.bounds hs).1
    omega

/-- The nodes of a tree lie within its blocks. -/
lemma in_of_within {a : ℕ} (h4 : ∀ e ∈ t.toList, minAllocSz ≤ e.2) (ha : Within a (addrs t)) :
    ∃ s ∈ t.toList, In a s := by
  obtain ⟨p, hp, h1, h2⟩ := ha
  obtain ⟨s, hs, rfl⟩ := List.mem_map.mp ((addrs_perm t).subset hp)
  have := h4 s hs
  unfold minAllocSz at this
  exact ⟨s, hs, h1, by omega⟩

lemma Local.of_frame {tr : ℕ} {m' : Mem} (h : Frame tr (addrs t) m m')
    (h4 : ∀ e ∈ t.toList, minAllocSz ≤ e.2) : Local [tr] t.toList m m' := by
  intro a h1 h2
  refine h a (by simpa using h1) fun hw => ?_
  obtain ⟨s, hs, ha⟩ := in_of_within h4 hw
  exact h2 s hs ha

namespace Blocks

/-- The tree gives its loops enough rounds. -/
lemma fuel_lt (hb : Blocks m h sz t U) : t.height + 1 < fuel := by
  refine height_lt_fuel hb.holds fun p hp => ?_
  obtain ⟨e, he, rfl⟩ := List.mem_map.mp ((addrs_perm t).subset hp)
  have h1 := hb.min e (by simp [he])
  have h2 := (hb.part.bounds (s := e) (by simp [he])).2
  have h3 := hb.room
  unfold minAllocSz at h1
  omega

/-- Different blocks do not overlap. -/
lemma clear (hb : Blocks m h sz t U) {e f : Entry} (he : e ∈ t.toList ++ U)
    (hf : f ∈ t.toList ++ U) (hne : e ≠ f) : Clear e f :=
  hb.part.apart.forall he hf hne

/-- The free blocks and the used ones are different. -/
lemma clear_used (hb : Blocks m h sz t U) {e e' : Entry} (he : e ∈ t.toList) (he' : e' ∈ U) :
    Clear e e' :=
  (List.pairwise_append.mp hb.part.apart).2.2 e he e' he'

lemma sum_used (hb : Blocks m h sz t U) : len U ≤ sz := by
  have := hb.part.sum_eq
  rw [List.map_append, List.sum_append] at this
  unfold len
  omega

lemma length_used (hb : Blocks m h sz t U) : U.length ≤ len U :=
  length_le_len fun e he => by
    have := hb.min e (by simp [he])
    unfold minAllocSz at this
    omega

end Blocks

/-- Writing the two counters keeps the rest. -/
lemma blocks_of {m' : Mem} (holds : Holds m (fmdsPtr h) t) (rising : Rising t.toList)
    (part : Partition (h + hdsSz) (h + sz) (t.toList ++ U))
    (min : ∀ e ∈ t.toList ++ U, minAllocSz ≤ e.2)
    (merged : ∀ e ∈ t.toList, ∀ e' ∈ t.toList, e.1 + e.2 ≠ e'.1)
    (header : ∀ e ∈ U, m e.1 = e.2) (hend : m (heapEnd h) = 8 * (h + sz))
    (room : h + sz < addrSpace) (size : minAllocSz + hdsSz ≤ sz)
    (hm : ∀ a, a ≠ trueNumAlloced h → a ≠ wordsUsed h → m' a = m a)
    (hc : m' (trueNumAlloced h) = U.length) (hw : m' (wordsUsed h) = len U) :
    Blocks m' h sz t U := by
  have hlow : ∀ e ∈ t.toList ++ U, h + 8 ≤ e.1 := fun e he => (part.bounds he).1
  refine ⟨holds.congr (hm _ ?_ ?_) fun a ha => ?_, rising, part, min, merged, fun e he => ?_, hc,
    hw, (hm _ ?_ ?_).trans hend, room, size⟩
  · simp [fmdsPtr, trueNumAlloced]
  · simp [fmdsPtr, wordsUsed]
  · obtain ⟨s, hs, h1, -⟩ := in_of_within (fun e he => min e (by simp [he])) ha
    have := hlow s (by simp [hs])
    refine hm a ?_ ?_
    · unfold trueNumAlloced; omega
    · unfold wordsUsed; omega
  · have := hlow e (by simp [he])
    rw [hm, header e he]
    · unfold trueNumAlloced; omega
    · unfold wordsUsed; omega
  · simp [Alloc.heapEnd, trueNumAlloced]
  · simp [Alloc.heapEnd, wordsUsed]

/-! ### `alloc` -/

/-- `alloc` moves the node back only when it was replaced; else `avl_move` would do nothing. -/
lemma avlRemove_some {m' : Mem} {tr p : ℕ} (h : avlRemove m tr p = some m') :
    ∃ m₀ q, avlDeleteNode m tr p = some (m₀, q) ∧
      (if q ≠ p then avlMove m₀ tr q p else m₀) = m' := by
  obtain ⟨⟨m₀, q⟩, h1, rfl⟩ := Option.map_eq_some_iff.mp h
  refine ⟨m₀, q, h1, ?_⟩
  by_cases hq : q = p <;> simp [hq, avlMove]

/-- The number of words `alloc` looks for. -/
def need (n : ℕ) : ℕ := max (n + umdsSz) minAllocSz

lemma need_eq {n : ℕ} (hn : n + umdsSz < wordMod) :
    (if wadd n umdsSz < minAllocSz then minAllocSz else wadd n umdsSz) = need n := by
  rw [wadd_eq hn, need]
  split_ifs <;> omega

/-- How the free blocks change when a block of `v` words at `p` is used from: the rest of it
stays free if it is long enough. -/
inductive Cut (p v x : ℕ) (rest : List Entry) : ℕ → List Entry → Prop
  | part {L : List Entry} (h : x + minAllocSz ≤ v) (hp : L.Perm ((p + x, v - x) :: rest)) :
    Cut p v x rest x L
  | all {L : List Entry} (h : v < x + minAllocSz) (hp : L.Perm rest) : Cut p v x rest v L

/-- The second half of `alloc`, on the memory from which the node has been taken out. -/
lemma cut_spec {p v x : ℕ} {rest : List Entry} (hb : Holds m (fmdsPtr h) t)
    (hr : Rising t.toList) (ht : t.toList.Perm rest) (hx : minAllocSz ≤ x) (hv : x ≤ v)
    (hpart : Partition (h + hdsSz) (h + sz) ((p, v) :: rest ++ U))
    (h4 : ∀ e ∈ rest ++ U, minAllocSz ≤ e.2) (hroom : h + sz < addrSpace)
    (hn : t.height + 1 < fuel) :
    ∃ m' t' k, (if wadd x minAllocSz ≤ v then
        (avlInsertNode avlMemCmp m (fmdsPtr h) (padd p x) (wsub v x)).map fun (m, _) => (m, x)
      else some (m, v)) = some (m', k) ∧ Holds m' (fmdsPtr h) t' ∧ Rising t'.toList ∧
      Cut p v x rest k t'.toList ∧ Local [fmdsPtr h] ((p, v) :: rest) m m' := by
  have hpv := hpart.bounds (s := (p, v)) (by simp)
  have hspace : addrSpace < wordMod := by decide
  unfold hdsSz at hpv
  simp only at hpv
  rw [wadd_eq (by unfold minAllocSz; omega)]
  by_cases hcut : x + minAllocSz ≤ v
  · rw [if_pos hcut, padd_eq (by omega), wsub_eq hv (by omega)]
    unfold minAllocSz at hx hcut h4
    have hsplit := Partition.split (L := rest ++ U) (k := x) hpart (by omega) (by omega)
    have hnodes : Sep (fmdsPtr h) ((p + x) :: addrs t) := by
      have h1 : Partition (h + hdsSz) (h + sz) ((p + x, v - x) :: rest ++ ((p, x) :: U)) :=
        hsplit.perm (List.perm_iff_count.mpr fun a => by
          simp only [List.count_cons, List.count_append, List.cons_append]; omega)
      have h2 := sep_of_partition (r := fmdsPtr h) h1 (fun s hs => ?_) (by
        unfold fmdsPtr hdsSz; omega)
      · rw [List.map_append, List.map_cons] at h2
        refine (h2.sublist (List.sublist_append_left ..)).perm (List.Perm.cons _ ?_)
        exact (ht.map Prod.fst).symm.trans (addrs_perm t).symm
      · simp only [List.cons_append, List.mem_cons, List.mem_append] at hs
        unfold minAllocSz
        rcases hs with rfl | hs | rfl | hs
        · simp only; omega
        · exact h4 s (by simp [hs])
        · exact hx
        · exact h4 s (by simp [hs])
    obtain ⟨m', t', h1, h2, h3, h5, h6⟩ := insertMem_spec (v := v - x) hb hr (by omega) hnodes hn
    refine ⟨m', t', x, by rw [h1]; rfl, h2, h5, .part hcut (h3.trans (ht.cons _)), ?_⟩
    intro a ha hout
    refine h6 a (by simpa using ha) fun hw => ?_
    obtain ⟨y, hy, h7, h8⟩ := hw
    rcases List.mem_cons.mp hy with rfl | hy
    · exact hout (p, v) (by simp) ⟨by simp only; omega, by simp only; omega⟩
    · obtain ⟨s, hs, h9⟩ := in_of_within (t := t) (a := a)
        (fun e he => h4 e (by simp [ht.subset he])) ⟨y, hy, h7, h8⟩
      exact hout s (by simp [ht.subset hs]) h9
  · rw [if_neg hcut]
    exact ⟨m, t, v, rfl, hb, hr, .all (by omega) ht, fun a _ _ => rfl⟩

/-- The segments after a cut are still a partition, and the free ones do not touch. -/
lemma Cut.blocks {p v x k a e : ℕ} {rest L : List Entry} (hc : Cut p v x rest k L)
    (hx : minAllocSz ≤ x) (hv : x ≤ v) (hpart : Partition a e ((p, v) :: rest ++ U))
    (h4 : ∀ e ∈ (p, v) :: rest ++ U, minAllocSz ≤ e.2)
    (hm : ∀ e ∈ (p, v) :: rest, ∀ e' ∈ (p, v) :: rest, e.1 + e.2 ≠ e'.1) :
    Partition a e (L ++ (p, k) :: U) ∧ (∀ e ∈ L ++ (p, k) :: U, minAllocSz ≤ e.2) ∧
      (∀ e ∈ L, ∀ e' ∈ L, e.1 + e.2 ≠ e'.1) ∧ x ≤ k ∧ k ≤ v := by
  cases hc with
  | all h hp =>
    refine ⟨hpart.perm ?_, fun e he => h4 e ?_, fun e he e' he' => hm e ?_ e' ?_, hv, le_rfl⟩
    · rw [List.cons_append]
      exact List.perm_middle.symm.trans (hp.symm.append_right _)
    · simp only [List.cons_append, List.mem_cons, List.mem_append] at he ⊢
      rcases he with he | rfl | he
      · exact .inr (.inl (hp.subset he))
      · exact .inl rfl
      · exact .inr (.inr he)
    · exact List.mem_cons_of_mem _ (hp.subset he)
    · exact List.mem_cons_of_mem _ (hp.subset he')
  | part h hp =>
    unfold minAllocSz at h hx h4 ⊢
    have hsplit := Partition.split (L := rest ++ U) (k := x) hpart (by omega) (by omega)
    have hmem : ∀ e ∈ L, e = (p + x, v - x) ∨ e ∈ rest := fun e he =>
      List.mem_cons.mp (hp.subset he)
    refine ⟨hsplit.perm ?_, fun e he => ?_, fun e he e' he' => ?_, le_rfl, by omega⟩
    · refine .trans ?_ (hp.symm.append_right _)
      refine List.perm_iff_count.mpr fun a => ?_
      simp only [List.count_cons, List.count_append, List.cons_append]
      omega
    · rcases List.mem_append.mp he with he | he
      · rcases hmem e he with rfl | he
        · simp only; omega
        · exact h4 e (by simp [he])
      · rcases List.mem_cons.mp he with rfl | he
        · exact hx
        · exact h4 e (by simp [he])
    · have hclear : ∀ s ∈ rest, Clear (p, v) s := fun s hs =>
        (List.pairwise_cons.mp hpart.apart).1 s (by simp [hs])
      rcases hmem e he with rfl | he <;> rcases hmem e' he' with rfl | he'
      · simp only; omega
      · have := hm (p, v) (by simp) e' (by simp [he'])
        simp only at this ⊢
        omega
      · have h1 := hclear e he
        have h2 := h4 e (by simp [he])
        unfold Clear at h1
        simp only at h1 ⊢
        omega
      · exact hm e (by simp [he]) e' (by simp [he'])

/-- What `alloc` does when it finds the free block of `v` words at `p`. -/
structure Granted (m : Mem) (h sz n : ℕ) (t : T) (U : List Entry) (m' : Mem) (p : ℕ)
    (v k : ℕ) (rest : List Entry) (t' : T) : Prop where
  found : t.toList.Perm ((p, v) :: rest)
  large : need n ≤ v
  size : need n ≤ k ∧ k ≤ v
  cut : Cut p v (need n) rest k t'.toList
  blocks : Blocks m' h sz t' ((p, k) :: U)
  keeps : Local (headerCells h) t.toList m m'

/-- **`alloc`** fails when no free block is large enough, and else takes one. -/
theorem alloc_spec {n : ℕ} (hb : Blocks m h sz t U) (hn : n + umdsSz < wordMod) :
    (alloc m h n = some (m, 0) ∧ ∀ e ∈ t.toList, e.2 < need n) ∨
    ∃ m' p v k rest t', alloc m h n = some (m', p + 1) ∧
      Granted m h sz n t U m' p v k rest t' := by
  have hptr : m.ptr (fmdsPtr h) = root t := ptr_of_eq hb.holds.zip.path
  have hfuel := hb.fuel_lt
  have hspace : addrSpace < wordMod := by decide
  obtain ⟨p, hp, hp'⟩ := avlMinGe_spec (d := need n) (n := fuel) hb.holds.zip.tree (by omega)
  simp only [alloc, need_eq hn, hptr, hp, Option.bind_some]
  rcases hp' with ⟨rfl, hp'⟩ | ⟨v, hv, hvn⟩
  · exact .inl ⟨by simp, hp'⟩
  · obtain ⟨hp0, hd⟩ := data_of_mem hb.holds.zip.tree hv
    simp only at hp0 hd
    obtain ⟨m₁, t₁, L₁, L₂, w, h1, h2, h3, h4, h5⟩ := avlRemove_spec hb.holds hv hfuel
    have hw := (data_of_mem hb.holds.zip.tree (e := (p, w)) (by simp [h3])).2
    obtain rfl : w = v := hw.symm.trans hd
    have hfound : t.toList.Perm ((p, w) :: t₁.toList) := by
      rw [h3, h4]; exact List.perm_middle
    have hpart : Partition (h + hdsSz) (h + sz) ((p, w) :: t₁.toList ++ U) :=
      hb.part.perm (hfound.append_right U)
    have hmin : ∀ e ∈ (p, w) :: t₁.toList ++ U, minAllocSz ≤ e.2 := fun e he =>
      hb.min e ((hfound.append_right U).symm.subset he)
    have hmerged : ∀ e ∈ (p, w) :: t₁.toList, ∀ e' ∈ (p, w) :: t₁.toList, e.1 + e.2 ≠ e'.1 :=
      fun e he e' he' => hb.merged e (hfound.symm.subset he) e' (hfound.symm.subset he')
    have hxn : minAllocSz ≤ need n := le_max_right ..
    have hrise : Rising t₁.toList := by
      have := hb.rising
      rw [h3] at this
      rw [h4]
      exact this.sublist ((List.sublist_cons_self ..).append_left L₁)
    have hfuel₁ : t₁.height + 1 < fuel := height_lt_fuel h2 fun q hq => by
      obtain ⟨e, he, rfl⟩ := List.mem_map.mp ((addrs_perm t₁).subset hq)
      have h6 := hmin e (by simp [he])
      have h7 := (hpart.bounds (s := e) (by simp [he])).2
      have := hb.room
      unfold minAllocSz at h6
      omega
    obtain ⟨m₂, t₂, k, g1, g2, g3, g4, g5⟩ := cut_spec h2 hrise (.refl _) hxn hvn hpart
      (fun e he => hmin e (List.mem_cons_of_mem _ he)) hb.room hfuel₁
    obtain ⟨k1, k2, k3, k4⟩ := g4.blocks hxn hvn hpart hmin hmerged
    have hbound := hpart.bounds (s := (p, w)) (by simp)
    unfold hdsSz at hbound
    simp only at hbound
    -- the memory is as before outside the free blocks
    have hloc : Local [fmdsPtr h] t.toList m m₂ := by
      refine (Local.of_frame h5 fun e he => hb.min e (by simp [he])).trans
        (g5.mono (by simp) fun a s hs ha => ⟨s, hfound.symm.subset hs, ha⟩)
    have hlow : ∀ a, a < h + 8 → a ≠ fmdsPtr h → m₂ a = m a := fun a ha hne => by
      refine hloc a (by simpa using hne) fun s hs hin => ?_
      have := (hb.part.bounds (s := s) (by simp [hs])).1
      unfold hdsSz at this
      have := hin.1
      omega
    have hset : ∀ a, a ≠ p → m₂.set p k a = m₂ a := fun a ha => set_ne _ _ ha
    have hholds : Holds (m₂.set p k) (fmdsPtr h) t₂ := by
      refine g2.congr (hset _ (by unfold fmdsPtr; omega)) fun a ha => hset a ?_
      rintro rfl
      obtain ⟨s, hs, h6⟩ := in_of_within (fun e he => k2 e (by simp [he])) ha
      have := (List.pairwise_append.mp k1.apart).2.2 s hs (a, k) (by simp)
      have h7 := k2 (a, k) (by simp)
      unfold In at h6
      unfold Clear at this
      unfold minAllocSz at h7
      simp only at h7 this
      omega
    have hcount : wadd (m₂.set p k (trueNumAlloced h)) 1 = ((p, k) :: U).length := by
      rw [hset _ (by unfold trueNumAlloced; omega), hlow _ (by unfold trueNumAlloced; omega)
        (by simp [trueNumAlloced, fmdsPtr]), hb.count, List.length_cons]
      have h6 := hb.length_used
      have h7 := hb.sum_used
      have := hb.room
      exact wadd_eq (by omega)
    have hwords : wadd (m₂.set p k (wordsUsed h)) k = len ((p, k) :: U) := by
      rw [hset _ (by unfold wordsUsed; omega), hlow _ (by unfold wordsUsed; omega)
        (by simp [wordsUsed, fmdsPtr]), hb.words]
      have h7 := k1.sum_eq
      have := hb.room
      simp only [List.map_append, List.map_cons, List.sum_append, List.sum_cons] at h7
      simp only [len, List.map_cons, List.sum_cons]
      rw [wadd_eq (by omega), Nat.add_comm]
    refine .inr ⟨((m₂.set p k).set (trueNumAlloced h) (wadd (m₂.set p k (trueNumAlloced h)) 1)).set
      (wordsUsed h) (wadd (m₂.set p k (wordsUsed h)) k), p, w, k, t₁.toList, t₂, ?_, hfound, hvn,
      k4, g4, ?_, ?_⟩
    · obtain ⟨m₀, q, hdel, hmove⟩ := avlRemove_some h1
      rw [if_neg hp0, hdel, Option.bind_some]
      simp only [hmove, hd]
      rw [g1]
      simp only [Option.map_some, Option.some.injEq, Prod.mk.injEq, and_true]
      rw [set_ne _ _ (by simp [wordsUsed, trueNumAlloced] : wordsUsed h ≠ trueNumAlloced h)]
    · refine blocks_of hholds g3 k1 k2 k3 ?_ ?_ hb.room hb.size (fun a h6 h7 => ?_) ?_ ?_
      · intro e he
        rcases List.mem_cons.mp he with rfl | he
        · exact set_self ..
        · -- the headers of the other used blocks are as before
          have h6 := hb.clear_used (hfound.symm.subset List.mem_cons_self) he
          have h7 := hb.min e (by simp [he])
          have h8 := hb.part.bounds (s := e) (by simp [he])
          have h9 := hmin (p, w) (by simp)
          unfold Clear at h6
          unfold minAllocSz at h7 h9
          unfold hdsSz at h8
          simp only at h6 h9
          rw [hset _ (by omega), hloc, hb.header e he]
          · simp only [List.mem_singleton, fmdsPtr]; omega
          · intro s hs hin
            have h9 := hb.clear_used hs he
            unfold Clear at h9
            unfold In at hin
            omega
      · rw [hset _ (by unfold Alloc.heapEnd; omega), hlow _ (by unfold Alloc.heapEnd; omega)
          (by simp [Alloc.heapEnd, fmdsPtr]), hb.heapEnd]
      · rw [set_ne _ _ h7, set_ne _ _ h6]
      · rw [set_ne _ _ (by simp [wordsUsed, trueNumAlloced]), set_self, hcount]
      · rw [set_self, hwords]
    · intro a h6 h7
      simp only [headerCells, List.mem_cons, List.not_mem_nil, or_false, not_or] at h6
      rw [set_ne _ _ h6.2.2, set_ne _ _ h6.2.1, hset, hloc a (by simpa using h6.1) h7]
      rintro rfl
      have h8 := hmin (a, w) (by simp)
      unfold minAllocSz at h8
      exact h7 (a, w) (hfound.symm.subset List.mem_cons_self) ⟨le_rfl, by simp only at h8 ⊢; omega⟩

/-- There is a free block of `x` words. -/
def Roomy (t : T) (x : ℕ) : Prop := ∃ e ∈ t.toList, x ≤ e.2

/-- The block that is cut leaves room for another one. -/
lemma Granted.roomy {m' : Mem} {n p v k x : ℕ} {rest : List Entry} {t' : T}
    (hg : Granted m h sz n t U m' p v k rest t') (hr : Roomy t (x + need n + minAllocSz)) :
    Roomy t' x := by
  obtain ⟨e, he, hle⟩ := hr
  have hcut := hg.cut
  unfold Roomy
  generalize t'.toList = L at hcut ⊢
  rcases List.mem_cons.mp (hg.found.subset he) with rfl | he
  · cases hcut with
    | part hx hp => exact ⟨_, hp.symm.subset List.mem_cons_self, by dsimp only at hle ⊢; omega⟩
    | all hx hp => dsimp only at hle; omega
  · cases hcut with
    | part hx hp => exact ⟨e, hp.symm.subset (List.mem_cons_of_mem _ he), by omega⟩
    | all hx hp => exact ⟨e, hp.symm.subset he, by omega⟩

/-! ### `free` -/

/-- The free blocks leave room for a used one. -/
lemma Blocks.around {p k : ℕ} (hb : Blocks m h sz t U) (hp : (p, k) ∈ U) :
    Around p (p + k) t.toList := by
  have hpos : ∀ e ∈ t.toList, 0 < e.2 := fun e he => hb.part.pos e (by simp [he])
  refine ⟨?_, hpos, fun e he => ?_, fun e he => ?_, ?_⟩
  · have h1 := (List.pairwise_append.mp hb.part.apart).1
    refine (hb.rising.and h1).imp_of_mem fun {a b} _ hb' hab => ?_
    have := hpos b hb'
    have h2 := hab.2
    unfold Clear at h2
    omega
  · have := hb.clear_used he hp
    unfold Clear at this
    simp only at this
    omega
  · have := (hb.part.bounds (s := e) (by simp [he])).2
    have := hb.room
    omega
  · have := hb.part.pos (p, k) (by simp [hp])
    simp only at this
    omega

/-- A block grown together with those that it touches takes their place. -/
lemma partition_grown {p k a e : ℕ} {L l r rest V : List Entry}
    (hl : Touching (Ends p) L l) (hr : Touching (Begins (p + k)) L r)
    (hpart : Partition a e (l ++ r ++ rest ++ (p, k) :: V)) :
    Partition a e ((p - len l, len l + k + len r) :: rest ++ V) := by
  -- first with the block on the right, then with the one on the left
  have h1 : Partition a e ((p, k + len r) :: (l ++ rest ++ V)) := by
    cases hr with
    | none =>
      refine hpart.perm (List.perm_iff_count.mpr fun x => ?_)
      simp only [len_nil, Nat.add_zero, List.count_cons, List.count_append, List.count_nil]
      omega
    | one s hs hq =>
      obtain ⟨q, w⟩ := s
      obtain rfl : q = p + k := hq
      rw [len_single]
      refine Partition.join (hpart.perm (List.perm_iff_count.mpr fun x => ?_))
      simp only [List.count_cons, List.count_append, List.count_nil]
      omega
  cases hl with
  | none => simpa using h1
  | one s hs hq =>
    obtain ⟨q, w⟩ := s
    unfold Ends at hq
    simp only at hq
    subst hq
    rw [len_single, Nat.add_assoc, Nat.add_sub_cancel]
    refine Partition.join (L := rest ++ V) (h1.perm (List.perm_iff_count.mpr fun x => ?_))
    simp only [List.count_cons, List.count_append, List.count_nil, List.cons_append]
    omega

/-- A block grown together with those that it touches touches no other. -/
lemma merged_grown {p k : ℕ} {L l r rest : List Entry}
    (hl : Touching (Ends p) L l) (hr : Touching (Begins (p + k)) L r)
    (hL : L.Perm (l ++ r ++ rest)) (hk : 0 < k)
    (hm : ∀ e ∈ L, ∀ e' ∈ L, e.1 + e.2 ≠ e'.1) :
    ∀ e ∈ (p - len l, len l + k + len r) :: rest,
      ∀ e' ∈ (p - len l, len l + k + len r) :: rest, e.1 + e.2 ≠ e'.1 := by
  have hrest : ∀ e ∈ rest, e ∈ L := fun e he => hL.symm.subset (by simp [he])
  have hlp : len l ≤ p := by
    cases hl with
    | none => simp
    | one s hs hq => unfold Ends at hq; rw [len_single]; omega
  have hleft : ∀ e ∈ rest, e.1 + e.2 ≠ p - len l := fun e he => by
    cases hl with
    | none hnone => exact hnone e (hrest e he)
    | one s hs hq =>
      have := hm e (hrest e he) s hs
      unfold Ends at hq
      rw [len_single]
      omega
  have hright : ∀ e ∈ rest, p + k + len r ≠ e.1 := fun e he => by
    cases hr with
    | none hnone =>
      have := hnone e (hrest e he)
      unfold Begins at this
      rw [len_nil]
      omega
    | one s hs hq =>
      have := hm s hs e (hrest e he)
      unfold Begins at hq
      rw [len_single]
      omega
  intro e he e' he'
  rcases List.mem_cons.mp he with rfl | he <;> rcases List.mem_cons.mp he' with rfl | he'
  · simp only; omega
  · have := hright e' he'
    simp only
    omega
  · exact hleft e he
  · exact hm e (hrest e he) e' (hrest e' he')

lemma roomy_grown {p k x : ℕ} {t' : T} {l r rest : List Entry} (hL : t.toList.Perm (l ++ r ++ rest))
    (hl : Touching (Ends p) t.toList l) (hr : Touching (Begins (p + k)) t.toList r)
    (ht : t'.toList.Perm ((p - len l, len l + k + len r) :: rest)) (h : Roomy t x) :
    Roomy t' x := by
  obtain ⟨e, he, hle⟩ := h
  have hgrown : (p - len l, len l + k + len r) ∈ t'.toList := ht.symm.subset List.mem_cons_self
  rcases List.mem_append.mp (hL.subset he) with he | he
  · refine ⟨_, hgrown, ?_⟩
    rcases List.mem_append.mp he with he | he
    · cases hl with
      | none => simp at he
      | one s hs hq =>
        obtain rfl := List.mem_singleton.mp he
        rw [len_single]
        simp only
        omega
    · cases hr with
      | none => simp at he
      | one s hs hq =>
        obtain rfl := List.mem_singleton.mp he
        rw [len_single]
        simp only
        omega
  · exact ⟨e, ht.symm.subset (List.mem_cons_of_mem _ he), hle⟩

/-- **`free`** gives a used block back, unless its address is beyond the limit. -/
theorem free_spec {p k : ℕ} {V : List Entry} (hb : Blocks m h sz t U)
    (hU : U.Perm ((p, k) :: V)) :
    (freeLimit m h ≤ p + 1 → free m h (p + 1) = some m) ∧
    (p + 1 < freeLimit m h → ∃ m' t', free m h (p + 1) = some m' ∧ Blocks m' h sz t' V ∧
      Local (headerCells h) ((p, k) :: t.toList) m m' ∧ ∀ x, Roomy t x → Roomy t' x) := by
  have hp : (p, k) ∈ U := hU.symm.subset List.mem_cons_self
  have hbound := hb.part.bounds (s := (p, k)) (by simp [hp])
  have hk := hb.min (p, k) (by simp [hp])
  have hroom := hb.room
  unfold hdsSz at hbound
  unfold minAllocSz at hk
  simp only at hbound hk
  have hlow : padd h hdsSz = h + 8 := padd_eq (by unfold hdsSz; omega)
  have hsub : psub (p + 1) umdsSz = p := psub_eq (by simp [umdsSz]) (by omega)
  refine ⟨fun hlim => by rw [free, if_pos (.inr hlim)], fun hlim => ?_⟩
  have hhead : m p = k := hb.header _ hp
  rw [free, if_neg (by rw [hlow]; omega), hsub]
  simp only [hhead]
  have hpart := hb.part.perm (hU.append_left t.toList)
  have hmin : ∀ e ∈ t.toList ++ (p, k) :: V, 4 ≤ e.2 := fun e he =>
    hb.min e ((hU.append_left t.toList).symm.subset he)
  have hsep : Sep (fmdsPtr h) (p :: addrs t) := by
    have h1 := sep_of_partition (r := fmdsPtr h) hpart hmin (by unfold fmdsPtr hdsSz; omega)
    rw [List.map_append, List.map_cons] at h1
    refine (h1.perm List.perm_middle).sublist ?_ |>.perm ((addrs_perm t).symm.cons p)
    exact (List.sublist_append_left ..).cons_cons _
  obtain ⟨m₁, t₁, l, r, rest, g1, g2, g3, g4, g5, g6, g7, g8⟩ :=
    avlMerge_spec hb.holds (hb.around hp) (fun e he => hmin e (by simp [he])) (by omega)
      (by omega) hsep
  have hmem : ∀ e ∈ t₁.toList, e = (p - len l, len l + k + len r) ∨ e ∈ rest :=
    fun e he => List.mem_cons.mp (g7.subset he)
  have hrest : ∀ e ∈ rest, e ∈ t.toList := fun e he => g4.symm.subset (by simp [he])
  have hpart' : Partition (h + hdsSz) (h + sz) (t₁.toList ++ V) :=
    (partition_grown g5 g6 (hpart.perm (g4.append_right _))).perm (g7.symm.append_right V)
  have hmin' : ∀ e ∈ t₁.toList ++ V, minAllocSz ≤ e.2 := fun e he => by
    rcases List.mem_append.mp he with he | he
    · rcases hmem e he with rfl | he
      · unfold minAllocSz; simp only; omega
      · exact hmin e (by simp [hrest e he])
    · exact hmin e (by simp [he])
  have hmerged' : ∀ e ∈ t₁.toList, ∀ e' ∈ t₁.toList, e.1 + e.2 ≠ e'.1 := fun e he e' he' =>
    merged_grown g5 g6 g4 (by omega) hb.merged e (g7.subset he) e' (g7.subset he')
  -- the memory is as before outside the free blocks and the block given back
  have hloc : Local [fmdsPtr h] ((p, k) :: t.toList) m m₁ := by
    intro a h1 h2
    refine g8 a (by simpa using h1) fun hw => ?_
    obtain ⟨x, hx, h3, h4⟩ := hw
    rcases List.mem_cons.mp hx with rfl | hx
    · exact h2 _ List.mem_cons_self ⟨h3, by simp only; omega⟩
    · obtain ⟨s, hs, h5⟩ := in_of_within (fun e he => hmin e (by simp [he])) ⟨x, hx, h3, h4⟩
      exact h2 s (List.mem_cons_of_mem _ hs) h5
  have hlow : ∀ a, a < h + 8 → a ≠ fmdsPtr h → m₁ a = m a := fun a ha hne => by
    refine hloc a (by simpa using hne) fun s hs hin => ?_
    have h1 := hin.1
    rcases List.mem_cons.mp hs with rfl | hs
    · simp only at h1; omega
    · have := (hb.part.bounds (s := s) (by simp [hs])).1
      unfold hdsSz at this
      omega
  have hsum : len U = k + len V := by
    have := (hU.map Prod.snd).sum_eq
    simpa [len] using this
  have hlength : U.length = V.length + 1 := by simpa using hU.length_eq
  have hcount : wsub (m₁ (trueNumAlloced h)) 1 = V.length := by
    rw [hlow _ (by unfold trueNumAlloced; omega) (by simp [trueNumAlloced, fmdsPtr]), hb.count]
    have h6 := hb.length_used
    have h7 := hb.sum_used
    have hspace : addrSpace < wordMod := by decide
    rw [wsub_eq (by omega) (by omega)]
    omega
  have hwords : wsub (m₁ (wordsUsed h)) k = len V := by
    rw [hlow _ (by unfold wordsUsed; omega) (by simp [wordsUsed, fmdsPtr]), hb.words]
    have h7 := hb.sum_used
    have hspace : addrSpace < wordMod := by decide
    rw [wsub_eq (by omega) (by omega)]
    omega
  refine ⟨(m₁.set (trueNumAlloced h) (wsub (m₁ (trueNumAlloced h)) 1)).set (wordsUsed h)
    (wsub (m₁ (wordsUsed h)) k), t₁, ?_, ?_, ?_, fun x => roomy_grown g4 g5 g6 g7⟩
  · rw [g1]
    simp only [Option.map_some, Option.some.injEq]
    rw [set_ne _ _ (by simp [wordsUsed, trueNumAlloced] : wordsUsed h ≠ trueNumAlloced h)]
  · refine blocks_of g2 g3 hpart' hmin' hmerged' (fun e he => ?_) ?_ hroom hb.size
      (fun a h6 h7 => ?_) ?_ ?_
    · have he' : e ∈ U := hU.symm.subset (List.mem_cons_of_mem _ he)
      have h6 := (List.pairwise_cons.mp (List.pairwise_append.mp hpart.apart).2.1).1 e he
      have h7 := hmin e (by simp [he])
      have h8 := (hb.part.bounds (s := e) (by simp [he'])).1
      unfold hdsSz at h8
      rw [hloc, hb.header e he']
      · simp only [List.mem_singleton, fmdsPtr]; omega
      · intro s hs hin
        have hc : Clear s e := by
          rcases List.mem_cons.mp hs with rfl | hs
          · exact h6
          · exact hb.clear_used hs he'
        unfold Clear at hc
        unfold In at hin
        omega
    · rw [hlow _ (by unfold Alloc.heapEnd; omega) (by simp [Alloc.heapEnd, fmdsPtr]), hb.heapEnd]
    · rw [set_ne _ _ h7, set_ne _ _ h6]
    · rw [set_ne _ _ (by simp [wordsUsed, trueNumAlloced]), set_self, hcount]
    · rw [set_self, hwords]
  · intro a h6 h7
    simp only [headerCells, List.mem_cons, List.not_mem_nil, or_false, not_or] at h6
    rw [set_ne _ _ h6.2.2, set_ne _ _ h6.2.1, hloc a (by simpa using h6.1) h7]

/-! ### `realloc` -/

/-- A change that touches neither the header nor the free blocks nor the first words of the used
ones. -/
lemma Blocks.congr {m' : Mem} (hb : Blocks m h sz t U)
    (hlow : ∀ a, a = Alloc.heapEnd h ∨ a ∈ headerCells h → m' a = m a)
    (hU : ∀ e ∈ U, m' e.1 = m e.1) (ht : ∀ a, ∀ e ∈ t.toList, In a e → m' a = m a) :
    Blocks m' h sz t U := by
  refine ⟨hb.holds.congr (hlow _ (by simp [headerCells])) fun a ha => ?_, hb.rising, hb.part,
    hb.min, hb.merged, fun e he => (hU e he).trans (hb.header e he),
    (hlow _ (by simp [headerCells])).trans hb.count,
    (hlow _ (by simp [headerCells])).trans hb.words, (hlow _ (.inl rfl)).trans hb.heapEnd,
    hb.room, hb.size⟩
  obtain ⟨s, hs, hin⟩ := in_of_within (fun e he => hb.min e (by simp [he])) ha
  exact ht a s hs hin

/-- The words of a used block after its first are the user's. -/
lemma Blocks.user {m' : Mem} {e : Entry} (hb : Blocks m h sz t U) (he : e ∈ U)
    (hm : ∀ a, ¬ (e.1 < a ∧ a < e.1 + e.2) → m' a = m a) : Blocks m' h sz t U := by
  have hbound := hb.part.bounds (s := e) (by simp [he])
  unfold hdsSz at hbound
  refine hb.congr (fun a ha => hm a ?_) (fun e' he' => hm _ ?_) fun a s hs hin => hm a ?_
  · simp only [headerCells, List.mem_cons, List.not_mem_nil, or_false, Alloc.heapEnd, fmdsPtr,
      trueNumAlloced, wordsUsed] at ha
    omega
  · by_cases heq : e = e'
    · subst heq; omega
    · have h1 := hb.clear (e := e) (f := e') (by simp [he]) (by simp [he']) heq
      have h2 := hb.part.pos e' (by simp [he'])
      unfold Clear at h1
      omega
  · have h1 := hb.clear_used hs he
    unfold Clear at h1
    unfold In at hin
    omega

/-- The copying writes the first words of the new block. -/
lemma reallocCopy_spec {n i N q p k : ℕ} (hk : 0 < k) (hkw : k < wordMod)
    (hps : p + 1 < addrSpace) (hm : m p = k) (hN : min (k - 1) n < i + N)
    (hi : i ≤ min (k - 1) n) (hclear : p + k ≤ q ∨ q + min (k - 1) n ≤ p) :
    ∃ m', reallocCopy q (p + 1) n N m i = some m' ∧
      (∀ a, ¬ (q + i ≤ a ∧ a < q + min (k - 1) n) → m' a = m a) ∧
      ∀ j, i ≤ j → j < min (k - 1) n → m' (q + j) = m (p + 1 + j) := by
  induction N generalizing i m with
  | zero => omega
  | succ N ih =>
    have hsub : psub (p + 1) umdsSz = p := psub_eq (by simp [umdsSz]) hps
    rw [reallocCopy, hsub, hm, wsub_eq hk hkw]
    by_cases hlt : i < min (k - 1) n
    · rw [if_pos hlt]
      obtain ⟨m', h1, h2, h3⟩ := ih (i := i + 1) (m := m.set (q + i) (m (p + 1 + i)))
        (by rw [set_ne _ _ (by omega), hm]) (by omega) (by omega)
      refine ⟨m', h1, fun a ha => ?_, fun j hj hj' => ?_⟩
      · rw [h2 a (by omega), set_ne _ _ (by omega)]
      · by_cases heq : j = i
        · subst heq
          rw [h2 _ (by omega), set_self]
        · rw [h3 j (by omega) hj', set_ne _ _ (by omega)]
    · rw [if_neg hlt]
      exact ⟨m, rfl, fun a _ => rfl, fun j hj hj' => by omega⟩

/-- What is free after a cut was free before. -/
lemma Cut.sub {p v x k a : ℕ} {rest L : List Entry} (hc : Cut p v x rest k L) {s : Seg}
    (hs : s ∈ L) (ha : In a s) : ∃ s ∈ (p, v) :: rest, In a s := by
  cases hc with
  | all h hp => exact ⟨s, List.mem_cons_of_mem _ (hp.subset hs), ha⟩
  | part h hp =>
    rcases List.mem_cons.mp (hp.subset hs) with rfl | hs
    · refine ⟨(p, v), List.mem_cons_self, ?_⟩
      unfold In at ha ⊢
      simp only at ha ⊢
      omega
    · exact ⟨s, List.mem_cons_of_mem _ hs, ha⟩

lemma Granted.sub {m' : Mem} {n p v k : ℕ} {rest : List Entry} {t' : T}
    (hg : Granted m h sz n t U m' p v k rest t') {a : ℕ} {s : Seg} (hs : s ∈ t'.toList)
    (ha : In a s) : ∃ s ∈ t.toList, In a s := by
  obtain ⟨s', hs', ha'⟩ := hg.cut.sub hs ha
  exact ⟨s', hg.found.symm.subset hs', ha'⟩

lemma realloc_some {m₁ m₂ m₃ : Mem} {addr n q : ℕ} (h1 : alloc m h n = some (m₁, q)) (h0 : q ≠ 0)
    (h2 : reallocCopy q addr n fuel m₁ 0 = some m₂) (h3 : free m₂ h addr = some m₃) :
    realloc m h addr n = some (m₃, q) := by
  unfold realloc
  refine Option.bind_eq_some_iff.mpr ⟨(m₁, q), h1, ?_⟩
  dsimp only
  rw [if_neg h0]
  exact Option.bind_eq_some_iff.mpr ⟨m₂, h2, Option.map_eq_some_iff.mpr ⟨m₃, h3, rfl⟩⟩

/-- **`realloc`** fails as `alloc` does and then changes nothing; else it moves the block to a
new place, with the words that both have room for. -/
theorem realloc_spec {p k n : ℕ} {V : List Entry} (hb : Blocks m h sz t U)
    (hU : U.Perm ((p, k) :: V)) (hn : n + umdsSz < wordMod) :
    (realloc m h (p + 1) n = some (m, 0) ∧ ∀ e ∈ t.toList, e.2 < need n) ∨
    ∃ m' q v k' t', realloc m h (p + 1) n = some (m', q + 1) ∧ (q, v) ∈ t.toList ∧
      need n ≤ v ∧ need n ≤ k' ∧ k' ≤ v ∧
      Blocks m' h sz t' ((q, k') :: if p + 1 < freeLimit m h then V else U) ∧
      (∀ j, j < min (k - 1) n → m' (q + 1 + j) = m (p + 1 + j)) ∧
      Local (headerCells h) ((p, k) :: t.toList) m m' ∧
      ∀ x, Roomy t (x + need n + minAllocSz) → Roomy t' x := by
  have hp : (p, k) ∈ U := hU.symm.subset List.mem_cons_self
  rcases alloc_spec hb hn with ⟨h1, h2⟩ | ⟨m₁, q, v, k', rest, t₁, h1, hg⟩
  · exact .inl ⟨by rw [realloc, h1]; rfl, h2⟩
  · have hb₁ := hg.blocks
    have hq : (q, v) ∈ t.toList := hg.found.symm.subset List.mem_cons_self
    have hclear : Clear (q, k') (p, k) :=
      (List.pairwise_cons.mp (List.pairwise_append.mp hb₁.part.apart).2.1).1 _ hp
    have hbound := hb₁.part.bounds (s := (p, k)) (by simp [hp])
    have hroom := hb.room
    have hspace : addrSpace < wordMod := by decide
    have hk := hb₁.min (p, k) (by simp [hp])
    obtain ⟨hx1, hx2⟩ := hg.size
    have hneed : n + 1 ≤ need n := le_max_left ..
    unfold Clear at hclear
    unfold hdsSz at hbound
    unfold minAllocSz at hk
    simp only at hclear hbound hk
    -- the copying stays within the new block
    obtain ⟨m₂, g1, g2, g3⟩ := reallocCopy_spec (m := m₁) (n := n) (i := 0) (N := fuel)
      (q := q + 1) (p := p) (k := k) (by omega) (by omega) (by omega)
      (hb₁.header (p, k) (by simp [hp])) (by unfold fuel; omega) (by omega) (by omega)
    have hb₂ : Blocks m₂ h sz t₁ ((q, k') :: U) := by
      refine hb₁.user (e := (q, k')) (by simp) fun a ha => g2 a ?_
      simp only at ha
      omega
    have hlim : freeLimit m₂ h = freeLimit m h := by
      rw [freeLimit, freeLimit, hb₂.heapEnd, hb.heapEnd]
    have hloc₂ : Local (headerCells h) ((p, k) :: t.toList) m m₂ := by
      refine (hg.keeps.mono (by simp) fun a s hs ha => ⟨s, by simp [hs], ha⟩).trans ?_
      intro a _ h4
      refine g2 a fun h5 => h4 (q, v) (by simp [hq]) ?_
      unfold In
      simp only
      omega
    have hcode : ∀ x, free m₂ h (p + 1) = some x → realloc m h (p + 1) n = some (x, q + 1) :=
      fun x hx => realloc_some h1 (by omega) g1 hx
    -- the words of the old block up to the copying
    have hold : ∀ j, j < min (k - 1) n → m₁ (p + 1 + j) = m (p + 1 + j) := fun j hj => by
      refine hg.keeps _ ?_ fun s hs hin => ?_
      · simp only [headerCells, List.mem_cons, List.not_mem_nil, or_false, fmdsPtr,
          trueNumAlloced, wordsUsed]
        omega
      · have h5 := hb.clear_used hs hp
        unfold Clear at h5
        unfold In at hin
        simp only at h5
        omega
    have hperm : ((q, k') :: U).Perm ((p, k) :: (q, k') :: V) :=
      (hU.cons _).trans (List.Perm.swap ..)
    obtain ⟨f1, f2⟩ := free_spec hb₂ hperm
    by_cases hl : p + 1 < freeLimit m h
    · obtain ⟨m₃, t₃, f3, f4, f5, f6⟩ := f2 (by rwa [hlim])
      rw [if_pos hl]
      refine .inr ⟨m₃, q, v, k', t₃, hcode _ f3, hq, hg.large, hx1, hx2, f4, fun j hj => ?_, ?_,
        fun x hx => f6 x (hg.roomy hx)⟩
      · rw [f5, g3 j (by omega) hj, hold j hj]
        · simp only [headerCells, List.mem_cons, List.not_mem_nil, or_false, fmdsPtr,
            trueNumAlloced, wordsUsed]
          have := (hb₂.part.bounds (s := (q, k')) (by simp)).1
          unfold hdsSz at this
          simp only at this
          omega
        · intro s hs hin
          unfold In at hin
          rcases List.mem_cons.mp hs with rfl | hs
          · simp only at hin
            omega
          · have h5 := hb₂.clear_used hs List.mem_cons_self
            unfold Clear at h5
            simp only at h5
            omega
      · refine hloc₂.trans (f5.mono (by simp) fun a s hs ha => ?_)
        rcases List.mem_cons.mp hs with rfl | hs
        · exact ⟨_, List.mem_cons_self, ha⟩
        · obtain ⟨s', hs', ha'⟩ := hg.sub hs ha
          exact ⟨s', List.mem_cons_of_mem _ hs', ha'⟩
    · rw [if_neg hl]
      refine .inr ⟨m₂, q, v, k', t₁, hcode _ (f1 (by rw [hlim]; omega)), hq, hg.large, hx1, hx2,
        hb₂, fun j hj => ?_, hloc₂, fun x => hg.roomy⟩
      rw [g3 j (by omega) hj, hold j hj]

end LispMachine.HeapInv
