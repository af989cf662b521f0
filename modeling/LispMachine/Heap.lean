import LispMachine.HeapInv
import LispMachine.Lib.Run

/-!
The heap as its users see it: which addresses are allocated, what a user may do, and what then
holds in every state.
-/

namespace LispMachine.Heap

open LispMachine.Memory LispMachine.AvlCode LispMachine.AvlRepr LispMachine.FreeTree
open LispMachine.FreeMerge LispMachine.Alloc LispMachine.HeapInv LispMachine.Lib.Run
open LispMachine.Lib.BalTree LispMachine.Lib.BalTree.BTree LispMachine.Lib.Segments

/-- The memory, and the addresses handed out and not given back. The machine keeps no such
list. -/
structure HSt where
  mem : Mem
  live : List ℕ

namespace HSt

def set (s : HSt) (a v : ℕ) : HSt := { s with mem := s.mem.set a v }

def setPtr (s : HSt) (a p : ℕ) : HSt := { s with mem := s.mem.setPtr a p }

/-- `alloc` -/
def alloc (s : HSt) (heap n : ℕ) : Option (HSt × ℕ) :=
  (Alloc.alloc s.mem heap n).map fun (m, a) => (⟨m, if a = 0 then s.live else a :: s.live⟩, a)

/-- `free` -/
def free (s : HSt) (heap a : ℕ) : Option HSt :=
  (Alloc.free s.mem heap a).map fun m => ⟨m, s.live.erase a⟩

/-- `realloc` -/
def realloc (s : HSt) (heap a n : ℕ) : Option (HSt × ℕ) :=
  (Alloc.realloc s.mem heap a n).map fun (m, a') =>
    (⟨m, if a' = 0 then s.live else a' :: s.live.erase a⟩, a')

end HSt

/-- What the users of the heap of `sz` words at `h` do: call the three operations, giving back
only what is allocated and only addresses with the property `ok`, and write what is theirs. -/
inductive HStep (h sz : ℕ) (ok : ℕ → Prop) (s : HSt) : HSt → Prop
  | alloc {n a : ℕ} {s' : HSt} (hn : n + umdsSz < wordMod) (hs : s.alloc h n = some (s', a)) :
    HStep h sz ok s s'
  | free {a : ℕ} {s' : HSt} (ha : a ∈ s.live) (hok : ok a) (hs : s.free h a = some s') :
    HStep h sz ok s s'
  | realloc {a n a' : ℕ} {s' : HSt} (ha : a ∈ s.live) (hok : ok a) (hn : n + umdsSz < wordMod)
    (hs : s.realloc h a n = some (s', a')) : HStep h sz ok s s'
  | write {a x v : ℕ} (ha : a ∈ s.live) (hx : a ≤ x ∧ x < a + getMemSz s.mem a) :
    HStep h sz ok s (s.set x v)
  | other {x v : ℕ} (hx : x < h ∨ h + sz ≤ x ∨
      x ∈ [prev h, next h, gcSet h, gcNumAlloced h]) : HStep h sz ok s (s.set x v)

/-- The used blocks are the allocated ones and those of `lost`, which were given back in vain. -/
structure Inv (h sz : ℕ) (s : HSt) (lost : List ℕ) (t : T) (U : List Entry) : Prop where
  blocks : Blocks s.mem h sz t U
  used : (U.map fun e => e.1 + 1).Perm (s.live ++ lost)

namespace Inv

variable {h sz : ℕ} {s : HSt} {lost : List ℕ} {t : T} {U : List Entry}

lemma exists_block (hi : Inv h sz s lost t U) {a : ℕ} (ha : a ∈ s.live) :
    ∃ p k V, a = p + 1 ∧ U.Perm ((p, k) :: V) ∧
      (V.map fun e => e.1 + 1).Perm (s.live.erase a ++ lost) := by
  have hm := hi.used.symm.subset (List.mem_append_left lost ha)
  obtain ⟨⟨p, k⟩, he, rfl⟩ := List.mem_map.mp hm
  have hU := List.perm_cons_erase he
  refine ⟨p, k, U.erase (p, k), rfl, hU, ?_⟩
  have h1 := (hU.map fun e : Entry => e.1 + 1).symm.trans hi.used
  exact (h1.trans ((List.perm_cons_erase ha).append_right lost)).cons_inv

lemma getMemSz_eq (hi : Inv h sz s lost t U) {p k : ℕ} (hp : (p, k) ∈ U) :
    getMemSz s.mem (p + 1) = k - 1 ∧ 4 ≤ k ∧ h + 8 ≤ p ∧ p + k ≤ h + sz := by
  have hb := hi.blocks
  have h1 := hb.part.bounds (s := (p, k)) (by simp [hp])
  have h2 := hb.min (p, k) (by simp [hp])
  have h3 := hb.room
  have hspace : addrSpace < wordMod := by decide
  unfold hdsSz at h1
  unfold minAllocSz at h2
  simp only at h1 h2
  refine ⟨?_, h2, h1⟩
  rw [getMemSz, psub_eq (by simp [umdsSz]) (by omega)]
  simp only [umdsSz, Nat.add_sub_cancel]
  rw [hb.header _ hp]
  exact wsub_eq (by omega) (by omega)

/-- A user's own word is written. -/
lemma write (hi : Inv h sz s lost t U) {a x : ℕ} (v : ℕ) (ha : a ∈ s.live)
    (hx : a ≤ x ∧ x < a + getMemSz s.mem a) : Inv h sz (s.set x v) lost t U := by
  obtain ⟨p, k, V, rfl, hU, -⟩ := hi.exists_block ha
  have hp : (p, k) ∈ U := hU.symm.subset List.mem_cons_self
  obtain ⟨h1, h2, -⟩ := hi.getMemSz_eq hp
  refine ⟨hi.blocks.user hp fun b hb => set_ne _ _ ?_, hi.used⟩
  rintro rfl
  exact hb ⟨by simp only; omega, by simp only; omega⟩

/-- A word that is not the allocator's is written. -/
lemma other (hi : Inv h sz s lost t U) {x : ℕ} (v : ℕ)
    (hx : x < h ∨ h + sz ≤ x ∨ x ∈ [prev h, next h, gcSet h, gcNumAlloced h]) :
    Inv h sz (s.set x v) lost t U := by
  have hb := hi.blocks
  have hin : ∀ e ∈ t.toList ++ U, h + 8 ≤ e.1 ∧ 0 < e.2 ∧ e.1 + e.2 ≤ h + sz := fun e he => by
    have h1 := hb.part.bounds he
    have h2 := hb.part.pos e he
    unfold hdsSz at h1
    omega
  have hx' : x < h + 8 ∨ h + sz ≤ x := by
    simp only [List.mem_cons, List.not_mem_nil, or_false, prev, next, gcSet, gcNumAlloced] at hx
    omega
  have hsz := hb.size
  unfold minAllocSz hdsSz at hsz
  refine ⟨hb.congr (fun a ha => set_ne _ _ ?_) (fun e he => set_ne _ _ ?_)
    fun a e he hae => set_ne _ _ ?_, hi.used⟩
  · simp only [List.mem_cons, List.not_mem_nil, or_false, prev, next, gcSet, gcNumAlloced,
      headerCells, heapEnd, fmdsPtr, trueNumAlloced, wordsUsed] at hx ha
    omega
  · have := hin e (by simp [he])
    omega
  · have := hin e (by simp [he])
    unfold In at hae
    omega

/-- **`alloc`** from a state of the heap. -/
lemma alloc (hi : Inv h sz s lost t U) {n : ℕ} (hn : n + umdsSz < wordMod) :
    (s.alloc h n = some (s, 0) ∧ ∀ e ∈ t.toList, e.2 < need n) ∨
    ∃ s' p v k rest t', s.alloc h n = some (s', p + 1) ∧
      Granted s.mem h sz n t U s'.mem p v k rest t' ∧ s'.live = (p + 1) :: s.live ∧
      Inv h sz s' lost t' ((p, k) :: U) := by
  rcases alloc_spec hi.blocks hn with ⟨h1, h2⟩ | ⟨m', p, v, k, rest, t', h1, hg⟩
  · exact .inl ⟨by simp [HSt.alloc, h1], h2⟩
  · refine .inr ⟨⟨m', (p + 1) :: s.live⟩, p, v, k, rest, t', by simp [HSt.alloc, h1], hg, rfl,
      hg.blocks, ?_⟩
    simpa using hi.used

/-- **`free`** of an allocated address. -/
lemma free (hi : Inv h sz s lost t U) {a : ℕ} (ha : a ∈ s.live) :
    ∃ s' t' V p k, s.free h a = some s' ∧ s'.live = s.live.erase a ∧ a = p + 1 ∧ (p, k) ∈ U ∧
      Inv h sz s' (if a < freeLimit s.mem h then lost else a :: lost) t' V ∧
      Local (headerCells h) ((p, k) :: t.toList) s.mem s'.mem ∧ ∀ x, Roomy t x → Roomy t' x := by
  obtain ⟨p, k, V, rfl, hU, hV⟩ := hi.exists_block ha
  have hp : (p, k) ∈ U := hU.symm.subset List.mem_cons_self
  obtain ⟨h1, h2⟩ := free_spec hi.blocks hU
  by_cases hl : p + 1 < freeLimit s.mem h
  · obtain ⟨m', t', h3, h4, h5, h6⟩ := h2 hl
    rw [if_pos hl]
    exact ⟨⟨m', _⟩, t', V, p, k, by rw [HSt.free, h3]; rfl, rfl, rfl, hp, ⟨h4, hV⟩, h5, h6⟩
  · rw [if_neg hl]
    refine ⟨⟨s.mem, _⟩, t, U, p, k, by rw [HSt.free, h1 (by omega)]; rfl, rfl, rfl, hp,
      ⟨hi.blocks, hi.used.trans ?_⟩, fun a _ _ => rfl, fun _ => id⟩
    exact ((List.perm_cons_erase ha).append_right lost).trans List.perm_middle.symm

/-- **`realloc`** of an allocated address. -/
lemma realloc (hi : Inv h sz s lost t U) {a n : ℕ} (ha : a ∈ s.live)
    (hn : n + umdsSz < wordMod) :
    (s.realloc h a n = some (s, 0) ∧ ∀ e ∈ t.toList, e.2 < need n) ∨
    ∃ s' t' V p k q v k', s.realloc h a n = some (s', q + 1) ∧
      s'.live = (q + 1) :: s.live.erase a ∧ a = p + 1 ∧ (p, k) ∈ U ∧ (q, v) ∈ t.toList ∧
      need n ≤ v ∧ need n ≤ k' ∧ k' ≤ v ∧ (q, k') ∈ V ∧
      Inv h sz s' (if a < freeLimit s.mem h then lost else a :: lost) t' V ∧
      (∀ j, j < min (k - 1) n → s'.mem (q + 1 + j) = s.mem (a + j)) ∧
      Local (headerCells h) ((p, k) :: t.toList) s.mem s'.mem ∧
      ∀ x, Roomy t (x + need n + minAllocSz) → Roomy t' x := by
  obtain ⟨p, k, V, rfl, hU, hV⟩ := hi.exists_block ha
  have hp : (p, k) ∈ U := hU.symm.subset List.mem_cons_self
  rcases realloc_spec hi.blocks hU hn with ⟨h1, h2⟩ |
    ⟨m', q, v, k', t', h1, h2, h3, h4, h5, h6, h7, h8⟩
  · exact .inl ⟨by simp [HSt.realloc, h1], h2⟩
  · refine .inr ⟨⟨m', (q + 1) :: s.live.erase (p + 1)⟩, t', _, p, k, q, v, k',
      by simp [HSt.realloc, h1], rfl, rfl, hp, h2, h3, h4, h5, List.mem_cons_self, ⟨h6, ?_⟩, h7,
      h8⟩
    by_cases hl : p + 1 < freeLimit s.mem h
    · rw [if_pos hl, if_pos hl]
      simpa using hV
    · rw [if_neg hl, if_neg hl]
      simp only [List.map_cons, List.cons_append]
      refine (hi.used.cons _).trans (List.Perm.cons _ ?_)
      exact ((List.perm_cons_erase ha).append_right lost).trans List.perm_middle.symm

end Inv

end LispMachine.Heap
