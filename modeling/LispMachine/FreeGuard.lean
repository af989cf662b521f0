import LispMachine.AvlFrame
import LispMachine.HeapRuns

/-!
Which addresses `free` takes for ones of its heap.

The bound against which an address is compared is the end of the heap, a byte address, added to
the start as a number of words. A foreign address below the bound is given back to the heap.
-/

namespace LispMachine.FreeGuard

open LispMachine.Memory LispMachine.AvlCode LispMachine.AvlRepr LispMachine.AvlInsert
open LispMachine.AvlFrame LispMachine.AvlTree LispMachine.FreeTree LispMachine.FreeMerge
open LispMachine.Alloc
open LispMachine.HeapInv LispMachine.Heap LispMachine.HeapRuns LispMachine.Lib.BalTree
open LispMachine.Lib.BalTree.BTree LispMachine.Lib.Run

/-- The address is not one of the words after the header of the heap. -/
def Foreign (h sz a : ℕ) : Prop := a < h + hdsSz ∨ h + sz ≤ a

variable {m : Mem} {tr h sz a : ℕ}

/-! ### The links of a tree -/

lemma repr_links {t : T} {par p i : ℕ} (hr : Repr m t par) (hp : p ∈ addrs t) (hi : i < 3) :
    m.ptr (p + i) = par ∨ Node (· ∈ addrs t) (m.ptr (p + i)) := by
  induction t generalizing par with
  | nil => exact absurd hp List.not_mem_nil
  | node b l e r ihl ihr =>
    obtain ⟨q, v⟩ := e
    obtain ⟨-, h1, h2, h3, -, hl, hr⟩ := hr
    have hsub : ∀ c : T, (c = l ∨ c = r) → ∀ x, Node (· ∈ addrs c) x →
        Node (· ∈ addrs (.node b l (q, v) r)) x := by
      rintro c (rfl | rfl) x (rfl | hx)
      · exact .inl rfl
      · exact .inr (by simp [addrs, hx])
      · exact .inl rfl
      · exact .inr (by simp [addrs, hx])
    have hroot : ∀ c : T, Node (· ∈ addrs c) (root c) := fun c => by
      by_cases h0 : root c = 0
      · exact .inl h0
      · exact .inr (root_mem_addrs h0)
    have hq : q ∈ addrs (.node b l (q, v) r) := List.mem_cons_self
    simp only [addrs, List.mem_cons, List.mem_append] at hp
    rcases hp with rfl | hp | hp
    · obtain rfl | rfl | rfl : i = 0 ∨ i = 1 ∨ i = 2 := by omega
      · left
        have := revBalanceFactor_lt b
        unfold Mem.ptr
        rw [Nat.add_zero, h1]
        omega
      · rw [ptr_of_eq h2]
        exact .inr (hsub l (.inl rfl) _ (hroot l))
      · rw [ptr_of_eq h3]
        exact .inr (hsub r (.inr rfl) _ (hroot r))
    · rcases ihl hl hp with h4 | h4
      · exact .inr (.inr (h4 ▸ hq))
      · exact .inr (hsub l (.inl rfl) _ h4)
    · rcases ihr hr hp with h4 | h4
      · exact .inr (.inr (h4 ▸ hq))
      · exact .inr (hsub r (.inr rfl) _ h4)

lemma holds_closed {t : T} (ht : Holds m tr t) : Closed m tr (· ∈ addrs t) := by
  rintro x (rfl | ⟨p, hp, h1, h2⟩)
  · rw [ptr_of_eq ht.zip.path]
    by_cases h0 : root t = 0
    · exact .inl h0
    · exact .inr (root_mem_addrs h0)
  · obtain ⟨i, rfl⟩ : ∃ i, x = p + i := ⟨x - p, by omega⟩
    exact (repr_links ht.zip.tree hp (by omega)).elim .inl id

/-! ### The search for the neighbours -/

lemma mergeNext_sub {t : T} {par : ℕ} (addr amax : ℕ) (hr : Repr m t par) :
    ∃ s par', mergeNext m addr amax (root t) = root s ∧ Repr m s par' ∧
      (addrs s).Sublist (addrs t) := by
  unfold mergeNext
  cases t with
  | nil => exact ⟨.nil, 0, rfl, trivial, .refl _⟩
  | node b l e r =>
    obtain ⟨p, v⟩ := e
    have hrep := hr
    obtain ⟨p0, -, h2, h3, -, hl, hr⟩ := hr
    rw [root, if_neg p0]
    split_ifs
    · exact ⟨l, p, ptr_of_eq h2, hl, (List.sublist_append_left ..).cons _⟩
    · exact ⟨r, p, ptr_of_eq h3, hr, (List.sublist_append_right ..).cons _⟩
    · exact ⟨_, par, rfl, hrep, .refl _⟩

/-- The search finds nodes only, two different ones, and a left neighbour ends at `addr`. -/
lemma mergeSearch_found {n par addr amax left right x y : ℕ} {t : T} (hr : Repr m t par)
    (hnd : (addrs t).Nodup) (hs : mergeSearch m addr amax n (root t) left right = some (x, y)) :
    (x = left ∨ x ∈ addrs t ∧ padd x (data m x) = addr) ∧ (y = right ∨ y ∈ addrs t) ∧
      (x = y → x = left ∨ y = right) := by
  induction n generalizing t par left right with
  | zero => exact absurd hs (by simp [mergeSearch])
  | succ n ih =>
    rw [mergeSearch] at hs
    by_cases hdone : root t = 0 ∨ left ≠ 0 ∧ right ≠ 0
    · rw [if_pos hdone] at hs
      obtain ⟨rfl, rfl⟩ := Prod.mk.inj (Option.some.inj hs)
      exact ⟨.inl rfl, .inl rfl, fun _ => .inl rfl⟩
    · rw [if_neg hdone] at hs
      obtain _ | ⟨b, l, ⟨p, v⟩, r⟩ := t
      · exact absurd (.inl rfl) hdone
      have hrep := hr
      obtain ⟨p0, -, h2, h3, -, hl, hr⟩ := hr
      have hcl : child m .L p = root l := ptr_of_eq h2
      have hcr : child m .R p = root r := ptr_of_eq h3
      have hlr := List.nodup_cons.mp hnd
      have hl' : ∀ c, c ∈ addrs l → c ∈ addrs (.node b l (p, v) r) ∧ c ≠ p := fun c hc =>
        ⟨by simp [addrs, hc], fun heq => hlr.1 (List.mem_append_left _ (heq ▸ hc))⟩
      have hr' : ∀ c, c ∈ addrs r → c ∈ addrs (.node b l (p, v) r) ∧ c ≠ p := fun c hc =>
        ⟨by simp [addrs, hc], fun heq => hlr.1 (List.mem_append_right _ (heq ▸ hc))⟩
      rw [root, hcl, hcr] at hs
      by_cases h1 : p = amax
      · rw [if_pos h1] at hs
        obtain ⟨s, par', g1, g2, g3⟩ := mergeNext_sub addr amax hl
        rw [g1] at hs
        have hsl := g3.subset
        obtain ⟨k1, k2, k3⟩ := ih g2 ((List.nodup_append.mp hlr.2).1.sublist g3) hs
        refine ⟨k1.imp_right fun k4 => ⟨(hl' x (hsl k4.1)).1, k4.2⟩, .inr ?_, fun heq => ?_⟩
        · rcases k2 with rfl | k2
          · exact List.mem_cons_self
          · exact (hl' y (hsl k2)).1
        · rcases k3 heq with h4 | h4
          · exact .inl h4
          · rcases k1 with k4 | ⟨k4, -⟩
            · exact .inl k4
            · exact absurd (heq.trans h4) (hl' x (hsl k4)).2
      · rw [if_neg h1] at hs
        by_cases h2 : padd p (data m p) = addr
        · rw [if_pos h2] at hs
          obtain ⟨s, par', g1, g2, g3⟩ := mergeNext_sub addr amax hr
          rw [g1] at hs
          have hsr := g3.subset
          obtain ⟨k1, k2, k3⟩ := ih g2 ((List.nodup_append.mp hlr.2).2.1.sublist g3) hs
          refine ⟨.inr ?_, k2.imp_right fun k4 => (hr' y (hsr k4)).1, fun heq => ?_⟩
          · rcases k1 with rfl | ⟨k4, k5⟩
            · exact ⟨List.mem_cons_self, h2⟩
            · exact ⟨(hr' x (hsr k4)).1, k5⟩
          · rcases k3 heq with h4 | h4
            · rcases k2 with k4 | k4
              · exact .inr k4
              · exact absurd (heq.symm.trans h4) (hr' y (hsr k4)).2
            · exact .inr h4
        · rw [if_neg h2] at hs
          obtain ⟨s, par', g1, g2, g3⟩ := mergeNext_sub addr amax hrep
          rw [root] at g1
          rw [g1] at hs
          obtain ⟨k1, k2, k3⟩ := ih g2 (hnd.sublist g3) hs
          exact ⟨k1.imp_right fun k4 => ⟨g3.subset k4.1, k4.2⟩,
            k2.imp_right fun k4 => g3.subset k4, k3⟩

/-! ### Giving back a foreign block -/

/-- Taking out a node that has been found, if one has. -/
lemma remove_found {t : T} {x : ℕ} {m' : Mem} (ht : Holds m tr t)
    (h4 : ∀ p ∈ addrs t, p + 4 ≤ addrSpace) (hx : x ∈ addrs t)
    (hm : avlRemove m tr x = some m') :
    ∃ t', Holds m' tr t' ∧ (addrs t).Perm (x :: addrs t') ∧ Frame tr (addrs t) m m' ∧
      ∀ p ∈ addrs t', data m' p = data m p := by
  obtain ⟨⟨p, v⟩, he, rfl⟩ := List.mem_map.mp ((addrs_perm t).subset hx)
  obtain ⟨m₁, t', L₁, L₂, w, h1, h2, h3, h5, h6⟩ := avlRemove_spec ht he (height_lt_fuel ht h4)
  obtain rfl := Option.some.inj (h1.symm.trans hm)
  refine ⟨t', h2, ?_, h6, fun q hq => ?_⟩
  · refine (addrs_perm t).trans ?_
    rw [h3, List.map_append, List.map_cons]
    refine List.perm_middle.trans (List.Perm.cons _ ?_)
    rw [← List.map_append, ← h5]
    exact (addrs_perm t').symm
  · obtain ⟨⟨q, u⟩, he', rfl⟩ := List.mem_map.mp ((addrs_perm t').subset hq)
    have he'' : (q, u) ∈ t.toList := by
      rw [h3]
      rw [h5] at he'
      simp only [List.mem_append, List.mem_cons] at he' ⊢
      tauto
    have h7 := (data_of_mem h2.zip.tree he').2
    have h8 := (data_of_mem ht.zip.tree he'').2
    exact h7.trans h8.symm

lemma psub_padd {p d : ℕ} (hp : p < addrSpace) : psub (padd p d) d = p := by
  unfold psub padd addrSpace at *
  omega

/-- The nodes lie in the heap, after its header. -/
def Inside (h sz : ℕ) (t : T) : Prop := ∀ p ∈ addrs t, h + 8 ≤ p ∧ p + 4 ≤ h + sz

lemma not_within {t : T} (hin : Inside h sz t) : ¬ Within (trueNumAlloced h) (addrs t) := by
  rintro ⟨p, hp, h1, -⟩
  have := hin p hp
  unfold trueNumAlloced at h1
  omega

/-- Taking out what has been found, or nothing, leaves the count and the other nodes alone. -/
lemma remove_step {t : T} {x : ℕ} {m' : Mem} (ht : Holds m (fmdsPtr h) t) (hin : Inside h sz t)
    (hroom : h + sz < addrSpace) (hx : x = 0 ∨ x ∈ addrs t)
    (hm : x = 0 ∧ m' = m ∨ x ≠ 0 ∧ avlRemove m (fmdsPtr h) x = some m') :
    ∃ t', Holds m' (fmdsPtr h) t' ∧ Inside h sz t' ∧
      m' (trueNumAlloced h) = m (trueNumAlloced h) ∧
      (x ≠ 0 → (addrs t).Perm (x :: addrs t')) ∧
      (∀ p ∈ addrs t, p ≠ x → p ∈ addrs t') ∧ ∀ p ∈ addrs t', data m' p = data m p := by
  rcases hm with ⟨rfl, rfl⟩ | ⟨h0, hm⟩
  · exact ⟨t, ht, hin, rfl, fun h0 => absurd rfl h0, fun p hp _ => hp, fun _ _ => rfl⟩
  · obtain ⟨t', h1, h2, h3, h4⟩ := remove_found ht (fun p hp => by have := hin p hp; omega)
      (hx.resolve_left h0) hm
    refine ⟨t', h1, fun p hp => hin p (h2.symm.subset (List.mem_cons_of_mem _ hp)), ?_,
      fun _ => h2, fun p hp hne => (List.mem_cons.mp (h2.subset hp)).resolve_left hne, h4⟩
    refine h3 _ ?_ (not_within hin)
    unfold trueNumAlloced fmdsPtr
    omega

/-- A block from outside of the heap is put in without a change of the header's count. -/
lemma merge_foreign {t : T} {addr size : ℕ} {m' : Mem} (ht : Holds m (fmdsPtr h) t)
    (hin : Inside h sz t) (hroom : h + sz < addrSpace) (hsz : 12 ≤ sz) (haddr : h + sz ≤ addr + 1)
    (hm : avlMerge m (fmdsPtr h) addr size = some m') :
    m' (trueNumAlloced h) = m (trueNumAlloced h) := by
  have hptr : m.ptr (fmdsPtr h) = root t := ptr_of_eq ht.zip.path
  have hnodup : (addrs t).Nodup := by
    have hsep : Sep (fmdsPtr h) (addrs t) := by simpa using ht.zip.sep
    exact hsep.1.imp fun hap heq => by unfold Apart at hap; omega
  rw [avlMerge, hptr] at hm
  dsimp only at hm
  obtain ⟨⟨left, right⟩, hs, hm⟩ := Option.bind_eq_some_iff.mp hm
  obtain ⟨hleft, hright, hne⟩ := mergeSearch_found ht.zip.tree hnodup hs
  obtain ⟨⟨m₁, sz₁⟩, hm₁, hm⟩ := Option.bind_eq_some_iff.mp hm
  obtain ⟨⟨m₂, nd, sz₂⟩, hm₂, hm⟩ := Option.bind_eq_some_iff.mp hm
  obtain ⟨r, hins, rfl⟩ := Option.map_eq_some_iff.mp hm
  dsimp only at hm₁ hm₂ hins
  have hcode1 : right = 0 ∧ m₁ = m ∨ right ≠ 0 ∧ avlRemove m (fmdsPtr h) right = some m₁ := by
    split_ifs at hm₁ with h0
    · obtain ⟨m', h1, h2⟩ := Option.map_eq_some_iff.mp hm₁
      obtain ⟨rfl, -⟩ := Prod.mk.inj h2
      exact .inr ⟨h0, h1⟩
    · obtain ⟨rfl, -⟩ := Prod.mk.inj (Option.some.inj hm₁)
      exact .inl ⟨not_not.mp h0, rfl⟩
  obtain ⟨t₁, ht₁, hin₁, hcount₁, -, hkeep₁, hdata₁⟩ := remove_step ht hin hroom hright hcode1
  have hleft₁ : left = 0 ∨ left ∈ addrs t₁ ∧ padd left (data m₁ left) = addr := by
    rcases hleft with h0 | ⟨h1, h2⟩
    · exact .inl h0
    · by_cases h0 : left = 0
      · exact .inl h0
      · have h3 : left ∈ addrs t₁ := hkeep₁ left h1 fun heq => by
          have := hne heq
          omega
        exact .inr ⟨h3, by rw [hdata₁ left h3, h2]⟩
  have hcode2 : (left = 0 ∧ nd = addr ∨ left ≠ 0 ∧ nd = left) ∧
      (left = 0 ∧ m₂ = m₁ ∨ left ≠ 0 ∧ avlRemove m₁ (fmdsPtr h) left = some m₂) := by
    split_ifs at hm₂ with h0
    · obtain ⟨m', h1, h2⟩ := Option.map_eq_some_iff.mp hm₂
      obtain ⟨rfl, h3, -⟩ := Prod.mk.inj h2 |>.imp_right Prod.mk.inj
      refine ⟨.inr ⟨h0, ?_⟩, .inr ⟨h0, h1⟩⟩
      obtain ⟨h4, h5⟩ := hleft₁.resolve_left h0
      have := hin₁ left h4
      rw [← h3, ← h5, psub_padd (by omega)]
    · obtain ⟨rfl, h3, -⟩ := Prod.mk.inj (Option.some.inj hm₂) |>.imp_right Prod.mk.inj
      exact ⟨.inl ⟨not_not.mp h0, h3.symm⟩, .inl ⟨not_not.mp h0, rfl⟩⟩
  obtain ⟨t₂, ht₂, hin₂, hcount₂, hperm₂, -⟩ := remove_step ht₁ hin₁ hroom
    (hleft₁.imp_right And.left) hcode2.2
  -- the new node lies apart from the others, or after the heap
  have hnd : h + 8 ≤ nd ∧ ∀ p ∈ addrs t₂, nd + 3 < p ∨ p + 3 ≤ nd + 3 := by
    rcases hcode2.1 with ⟨-, rfl⟩ | ⟨h0, rfl⟩
    · exact ⟨by omega, fun p hp => by have := hin₂ p hp; omega⟩
    · have hsep : Sep (fmdsPtr h) (addrs t₁) := by simpa using ht₁.zip.sep
      have hap := List.pairwise_cons.mp (hsep.perm (hperm₂ h0)).1
      refine ⟨(hin₁ nd ((hperm₂ h0).symm.subset List.mem_cons_self)).1, fun p hp => ?_⟩
      have := hap.1 p hp
      unfold Apart at this
      omega
  have hclosed := holds_closed ht₂
  have hword : ∀ a, LinkWord (fmdsPtr h) (fun p => p ∈ addrs t₂ ∨ p = nd) a →
      LinkWord (fmdsPtr h) (· ∈ addrs t₂) a ∨ nd ≤ a ∧ a < nd + 3 := by
    rintro a (rfl | ⟨p, hp | rfl, h1⟩)
    · exact .inl (.inl rfl)
    · exact .inl (.inr ⟨p, hp, h1⟩)
    · exact .inr h1
  have hnot : ∀ a, a ≠ fmdsPtr h → (∀ p ∈ addrs t₂, a < p ∨ p + 3 ≤ a) →
      ¬ LinkWord (fmdsPtr h) (· ∈ addrs t₂) a := by
    rintro a h1 h2 (h3 | ⟨p, hp, h3⟩)
    · exact h1 h3
    · have := h2 p hp
      omega
  rw [← hcount₁, ← hcount₂]
  refine avlInsertNode_frame (X := fun p => p ∈ addrs t₂ ∨ p = nd) ?_ (.inr rfl) ?_ ?_ ?_
    hins (trueNumAlloced h) (fun hw => ?_) ?_
  · rintro (h1 | h1)
    · have := hin₂ 0 h1
      omega
    · omega
  · intro a ha hout
    exact ((hword a ha).resolve_right (by omega) |> hclosed a).imp_right .inl
  · unfold fmdsPtr
    omega
  · intro hw
    refine (hword _ hw).elim (hnot _ (by unfold fmdsPtr; omega) hnd.2) (by omega)
  · refine (hword _ hw).elim (hnot _ (by unfold trueNumAlloced fmdsPtr; omega) fun p hp => ?_) ?_
    · have := hin₂ p hp
      unfold trueNumAlloced
      omega
    · unfold trueNumAlloced
      omega
  · unfold trueNumAlloced
    omega

/-! ### The guard of `free` -/

/-- A foreign address that the guard lets through is counted as given back. -/
lemma free_foreign_ne {s : HSt} {lost : List ℕ} {t : T} {U : List Entry}
    (hi : Inv h sz s lost t U) (ha : a < addrSpace) (hin : h + hdsSz ≤ a) (hlim : a < freeBound h sz)
    (hf : Foreign h sz a) : Alloc.free s.mem h a ≠ some s.mem := by
  have hb := hi.blocks
  have hroom := hb.room
  have hsz := hb.size
  have hspace : addrSpace < wordMod := by decide
  unfold minAllocSz hdsSz at hsz
  unfold hdsSz at hin
  unfold Foreign hdsSz at hf
  have hinside : Inside h sz t := fun p hp => by
    obtain ⟨e, he, rfl⟩ := List.mem_map.mp ((addrs_perm t).subset hp)
    have h1 := hb.part.bounds (s := e) (by simp [he])
    have h2 := hb.min e (by simp [he])
    unfold hdsSz at h1
    unfold minAllocSz at h2
    omega
  have hguard : ¬ (a < padd h hdsSz ∨ freeLimit s.mem h ≤ a) := by
    rw [freeLimit_eq hb, padd_eq (by unfold hdsSz; omega)]
    unfold hdsSz
    omega
  have hblock : psub a umdsSz = a - 1 := psub_eq (by unfold umdsSz; omega) ha
  intro hfree
  rw [Alloc.free, if_neg hguard] at hfree
  dsimp only at hfree
  rw [hblock] at hfree
  obtain ⟨m', hm, hm'⟩ := Option.map_eq_some_iff.mp hfree
  have hcount := merge_foreign hb.holds hinside hroom (by omega) (by omega) hm
  -- the count is one less
  have h1 := congrFun hm' (trueNumAlloced h)
  rw [set_ne _ _ (by unfold trueNumAlloced wordsUsed; omega), set_self, hcount, hb.count] at h1
  have h2 := hb.length_used
  have h3 := hb.sum_used
  unfold wsub wordMod at h1
  unfold addrSpace at hroom
  omega

/-- **`free` ignores** an address outside of the heap exactly if it lies before the heap's words
or not below the bound. -/
theorem free_foreign_iff {s : HSt} (hs : (heapSystem h sz fun _ => True).Reachable s)
    (ha : a < addrSpace) (hf : Foreign h sz a) :
    Alloc.free s.mem h a = some s.mem ↔ a < h + hdsSz ∨ freeBound h sz ≤ a := by
  obtain ⟨lost, t, U, hi, -⟩ := inv_reachable hs
  have hb := hi.blocks
  have hroom := hb.room
  have hsz := hb.size
  unfold minAllocSz hdsSz at hsz
  constructor
  · intro hfree
    by_contra hn
    exact free_foreign_ne hi ha (by omega) (by omega) hf hfree
  · intro hout
    refine if_pos ?_
    rwa [freeLimit_eq hb, padd_eq (by unfold hdsSz; omega)]

/-- A heap of a megabyte at the address `8`. -/
theorem free_foreign_low : ∃ s : HSt, Alloc.free s.mem 1 5 = some s.mem := by
  obtain ⟨s, c, hs, -⟩ := @exists_init 1 (2 ^ 17) (by decide) (by decide) (by decide)
    fun _ => True
  exact ⟨s, (free_foreign_iff (.init hs) (by decide) (.inl (by decide))).mpr (.inl (by decide))⟩

/-- The address after that heap is taken for one of it. -/
theorem free_foreign_taken : ¬ ∀ (h sz : ℕ) (s : HSt) (a : ℕ),
    (heapSystem h sz fun _ => True).Reachable s → a < addrSpace → Foreign h sz a →
      Alloc.free s.mem h a = some s.mem := by
  intro hall
  obtain ⟨s, c, hs, -⟩ := @exists_init 1 (2 ^ 17) (by decide) (by decide) (by decide)
    fun _ => True
  obtain ⟨lost, t, U, hi, -⟩ := inv_reachable (.init hs)
  have hf : Foreign 1 (2 ^ 17) (2 ^ 17 + 1) := .inr (by decide)
  exact free_foreign_ne hi (by decide) (by decide) (by decide) hf
    (hall 1 (2 ^ 17) s _ (.init hs) (by decide) hf)

end LispMachine.FreeGuard
