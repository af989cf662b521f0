import LispMachine.Owned

/-!
The queues of `datastructures.c`: doubly linked lists of words.

The collector and the evaluator use them as stacks, and take from the other end as well. A queue
is the double-ended sequence of its links, each with its datum.
-/

namespace LispMachine.Queue

open LispMachine.Memory LispMachine.Alloc LispMachine.Heap LispMachine.HeapFrame
open LispMachine.HeapRuns LispMachine.HeapInv LispMachine.Lib.Run
open LispMachine.Owned (Owns Frees Takes)

/-- The fields of a queue. -/
def first (q : ℕ) : ℕ := q
def last (q : ℕ) : ℕ := q + 1

/-- `sizeof(Queue)/sizeof(word)` -/
def queueSz : ℕ := 2

/-- The fields of a link. -/
def data (l : ℕ) : ℕ := l
def next (l : ℕ) : ℕ := l + 1
def prev (l : ℕ) : ℕ := l + 2

/-- `sizeof(Link)/sizeof(word)` -/
def linkSz : ℕ := 3

/-- `queue` -/
def queue (heap : ℕ) (s : HSt) : Option (HSt × ℕ) :=
  (s.alloc heap queueSz).map fun (s, q) =>
    if q = 0 then (s, 0) else ((s.set (first q) 0).set (last q) 0, q)

/-- The links of `queue_push`: `link` is put before the first link. -/
def linkFirst (s : HSt) (q link d : ℕ) : HSt :=
  let s := s.set (data link) d
  let s := s.set (next link) (s.mem (first q))
  let s := s.set (prev link) 0
  let s := if s.mem (first q) = 0 then s.setPtr (last q) link
    else s.setPtr (prev (s.mem.ptr (first q))) link
  s.setPtr (first q) link

/-- `queue_push` -/
def queuePush (heap : ℕ) (s : HSt) (q d : ℕ) : Option (HSt × ℕ) :=
  (s.alloc heap linkSz).map fun (s, link) =>
    if link = 0 then (s, 0) else (linkFirst s q link d, link)

/-- The ends of a queue. -/
inductive End
  | first
  | last
deriving DecidableEq

namespace End

def other : End → End
  | first => last
  | last => first

/-- The field of a queue for one of its ends. -/
def cell : End → ℕ → ℕ
  | first => Queue.first
  | last => Queue.last

/-- The field of a link that leads away from an end. -/
def away : End → ℕ → ℕ
  | first => next
  | last => prev

end End

/-- The links without the link at the end `d`. -/
def unlink (d : End) (s : HSt) (q link : ℕ) : HSt :=
  let s := s.set (d.cell q) (s.mem (d.away link))
  if s.mem (d.cell q) = 0 then s.set (d.other.cell q) 0
  else s.set (d.other.away (s.mem.ptr (d.away link))) 0

/-- Removing the link at the end `d`: the two functions are the same but for the fields. -/
def remove (d : End) (heap : ℕ) (s : HSt) (q : ℕ) : Option (HSt × ℕ) :=
  if s.mem (d.cell q) = 0 then some (s, 0)
  else
    let link := s.mem.ptr (d.cell q)
    let s := unlink d s q link
    let d := s.mem (data link)
    (s.free heap link).map fun s => (s, d)

/-- `queue_last` -/
def queueLast (heap : ℕ) (s : HSt) (q : ℕ) : Option (HSt × ℕ) := remove .last heap s q

/-- `queue_pop` -/
def queuePop (heap : ℕ) (s : HSt) (q : ℕ) : Option (HSt × ℕ) := remove .first heap s q

/-! ### The double-ended sequence -/

/-- A link and its datum. -/
abbrev Item := ℕ × ℕ

/-- The address of a link, or null where there is none. -/
def addr (o : Option Item) : ℕ := (o.map Prod.fst).getD 0

/-- The links of `e` and `f` lead to each other. -/
def Joined (d : End) (m : Mem) (e f : Item) : Prop :=
  m (d.away e.1) = 8 * f.1 ∧ m (d.other.away f.1) = 8 * e.1

/-- From its end `d` on, the queue at `q` has the links and the data of `L`. -/
structure Linked (d : End) (m : Mem) (q : ℕ) (L : List Item) : Prop where
  joined : L.IsChain (Joined d m)
  data : ∀ e ∈ L, m (data e.1) = e.2
  head : m (d.cell q) = 8 * addr L.head?
  tail : m (d.other.cell q) = 8 * addr L.getLast?
  before : ∀ e ∈ L.head?, m (d.other.away e.1) = 0
  after : ∀ e ∈ L.getLast?, m (d.away e.1) = 0

/-- The blocks of the queue are allocated, and different. -/
structure Owned (h sz : ℕ) (s : HSt) (q : ℕ) (L : List Item) : Prop where
  sound : Sound h sz s
  live : ∀ a ∈ q :: L.map Prod.fst, a ∈ s.live
  nodup : (q :: L.map Prod.fst).Nodup

variable {h sz q a b v i j : ℕ} {d : End} {s s' : HSt} {L : List Item} {m m' : Mem} {e f : Item}

@[simp] lemma addr_none : addr none = 0 := rfl
@[simp] lemma addr_some (e : Item) : addr (some e) = e.1 := rfl

namespace End

/-- The place of a field among those of its kind. -/
def idx : End → ℕ
  | first => 0
  | last => 1

lemma cell_eq (d : End) (q : ℕ) : d.cell q = q + d.idx := by cases d <;> rfl
lemma away_eq (d : End) (l : ℕ) : d.away l = l + (1 + d.idx) := by cases d <;> rfl
lemma idx_le (d : End) : d.idx ≤ 1 := by cases d <;> decide
lemma idx_other (d : End) : d.other.idx ≠ d.idx := by cases d <;> decide
@[simp] lemma other_other (d : End) : d.other.other = d := by cases d <;> rfl

end End

/-- The links are joined as before if the pointers between them are the same. -/
lemma joined_congr (hL : L.IsChain (Joined d m))
    (hn : ∀ e ∈ L.dropLast, m' (d.away e.1) = m (d.away e.1))
    (hp : ∀ e ∈ L.tail, m' (d.other.away e.1) = m (d.other.away e.1)) :
    L.IsChain (Joined d m') := by
  induction L with
  | nil => exact .nil
  | cons e L ih =>
    cases L with
    | nil => exact .singleton e
    | cons f L =>
      rw [List.isChain_cons_cons] at hL ⊢
      obtain ⟨⟨h1, h2⟩, h3⟩ := hL
      simp only [List.dropLast_cons_cons, List.tail_cons, List.forall_mem_cons] at hn hp
      refine ⟨⟨hn.1.trans h1, hp.1.trans h2⟩, ih h3 hn.2 fun x hx => hp.2 x ?_⟩
      simpa using hx

/-- A queue whose words are the same. -/
lemma Linked.congr (hl : Linked d m q L) (hq : ∀ i < 2, m' (q + i) = m (q + i))
    (hm : ∀ e ∈ L, ∀ i < 3, m' (e.1 + i) = m (e.1 + i)) : Linked d m' q L := by
  have hcell : ∀ d : End, m' (d.cell q) = m (d.cell q) := fun d => by
    rw [d.cell_eq]
    exact hq _ (by have := d.idx_le; omega)
  have haway : ∀ d : End, ∀ e ∈ L, m' (d.away e.1) = m (d.away e.1) := fun d e he => by
    rw [d.away_eq]
    exact hm e he _ (by have := d.idx_le; omega)
  exact ⟨joined_congr hl.joined (fun e he => haway d e (List.dropLast_subset _ he)) fun e he =>
      haway d.other e (List.tail_subset _ he),
    fun e he => (hm e he 0 (by omega)).trans (hl.data e he), (hcell d).trans hl.head,
    (hcell d.other).trans hl.tail,
    fun e he => (haway d.other e (List.mem_of_mem_head? he)).trans (hl.before e he),
    fun e he => (haway d e (List.mem_of_mem_getLast? he)).trans (hl.after e he)⟩

/-- **From the other end** the queue is the same in reverse. -/
lemma Linked.reverse (hl : Linked d m q L) : Linked d.other m q L.reverse where
  joined := by
    rw [List.isChain_reverse]
    refine hl.joined.imp fun e f hj => ?_
    exact ⟨hj.2, by simpa using hj.1⟩
  data e he := hl.data e (by simpa using he)
  head := by simpa using hl.tail
  tail := by simpa using hl.head
  before e he := by simpa using hl.after e (by simpa using he)
  after e he := hl.before e (by simpa using he)

namespace Owned

lemma mem (ho : Owned h sz s q L) (he : e ∈ L) : e.1 ∈ s.live :=
  ho.live _ (List.mem_cons_of_mem _ (List.mem_map_of_mem he))

lemma mem_queue (ho : Owned h sz s q L) : q ∈ s.live := ho.live _ List.mem_cons_self

lemma ne_queue (ho : Owned h sz s q L) (he : e ∈ L) : e.1 ≠ q := fun heq =>
  (List.nodup_cons.mp ho.nodup).1 (heq ▸ List.mem_map_of_mem he)

lemma ne_zero (ho : Owned h sz s q L) (ha : a ∈ s.live) : a ≠ 0 := by
  have := (ho.sound.bounds ha).1
  omega

/-- A word of one block is not one of another. -/
lemma word_ne (ho : Owned h sz s q L) (ha : a ∈ s.live) (hb : b ∈ s.live) (hi : i < 3)
    (hj : j < 3) (hne : a = b → i ≠ j) : a + i ≠ b + j := by
  intro heq
  have h1 := (ho.sound.bounds ha).2.2.1
  have h2 := (ho.sound.bounds hb).2.2.1
  obtain ⟨h3, h4⟩ := ho.sound.word_inj ha hb (by omega) (by omega) heq
  exact hne h3 h4

/-- The blocks after writes to their words. -/
lemma wrote {W : ℕ → ℕ → Prop} (ho : Owned h sz s q L) (hw : Wrote h sz W s s') :
    Owned h sz s' q L :=
  ⟨hw.sound, fun a ha => hw.live ▸ ho.live a ha, ho.nodup⟩

/-- The order of the links does not matter. -/
lemma perm {L' : List Item} (ho : Owned h sz s q L) (hp : L.Perm L') : Owned h sz s q L' := by
  have hp' := (hp.map Prod.fst).cons q
  exact ⟨ho.sound, fun a ha => ho.live a (hp'.symm.subset ha), hp'.nodup_iff.mp ho.nodup⟩

/-- **Freeing a link** that the queue no longer leads to. -/
lemma free {L' : List Item} (ho : Owned h sz s q L) (hp : L.Perm (e :: L'))
    (hl : Linked d s.mem q L') :
    ∃ s', s.free h e.1 = some s' ∧ s'.live = s.live.erase e.1 ∧ Ext (fun b _ => b = e.1) s s' ∧
      Owned h sz s' q L' ∧ Linked d s'.mem q L' := by
  have he : e ∈ L := hp.symm.subset List.mem_cons_self
  have hperm : (q :: L.map Prod.fst).Perm (e.1 :: q :: L'.map Prod.fst) :=
    ((hp.map Prod.fst).cons q).trans (.swap ..)
  obtain ⟨hnot, hnd⟩ := List.nodup_cons.mp (hperm.nodup_iff.mp ho.nodup)
  obtain ⟨s', h1, h2, h3, h4⟩ := free_ext ho.sound (ho.mem he)
  have hlive : ∀ a ∈ q :: L'.map Prod.fst, a ∈ s.live ∧ a ≠ e.1 := fun a ha =>
    ⟨ho.live a (hperm.symm.subset (List.mem_cons_of_mem _ ha)), fun heq => hnot (heq ▸ ha)⟩
  have hword : ∀ a ∈ q :: L'.map Prod.fst, ∀ i < 3, s'.mem (a + i) = s.mem (a + i) := by
    intro a ha i hi
    obtain ⟨h5, h6⟩ := hlive a ha
    have h7 := (ho.sound.bounds h5).2.2.1
    exact (h3 a h5 i (by omega) h6).word
  refine ⟨s', h1, h4, h3, ⟨h2, fun a ha => ?_, hnd⟩, hl.congr ?_ ?_⟩
  · obtain ⟨h5, h6⟩ := hlive a ha
    exact h4 ▸ (List.mem_erase_of_ne h6).mpr h5
  · exact fun i hi => hword q List.mem_cons_self i (by omega)
  · exact fun f hf => hword f.1 (List.mem_cons_of_mem _ (List.mem_map_of_mem hf))

end Owned

/-- The words of the blocks of the queue. -/
def Words (q : ℕ) (L : List Item) (a _ : ℕ) : Prop := a ∈ q :: L.map Prod.fst

/-! ### Removing a link -/

/-- The field that points to the first link of `L` from behind. -/
def backCell (d : End) (q : ℕ) : List Item → ℕ
  | [] => d.other.cell q
  | f :: _ => d.other.away f.1

lemma away_head (hl : Linked d m q (e :: L)) : m (d.away e.1) = 8 * addr L.head? := by
  cases L with
  | nil => exact hl.after e rfl
  | cons f L => exact (List.isChain_cons_cons.mp hl.joined).1.1

lemma unlink_eq (ho : Owned h sz s q (e :: L)) (hl : Linked d s.mem q (e :: L)) :
    unlink d s q e.1 = (s.set (d.cell q) (8 * addr L.head?)).set (backCell d q L) 0 := by
  have hne : d.away e.1 ≠ d.cell q := by
    rw [d.away_eq, d.cell_eq]
    have := d.idx_le
    exact ho.word_ne (ho.mem List.mem_cons_self) ho.mem_queue (by omega) (by omega) fun heq =>
      absurd heq (ho.ne_queue List.mem_cons_self)
  have haway : (s.set (d.cell q) (8 * addr L.head?)).mem.ptr (d.away e.1) = addr L.head? :=
    ptr_of_eq ((set_ne _ _ hne).trans (away_head hl))
  have hcell : (s.set (d.cell q) (8 * addr L.head?)).mem (d.cell q) = 8 * addr L.head? :=
    set_self ..
  simp only [unlink, away_head hl, haway, hcell]
  cases L with
  | nil => simp [backCell]
  | cons f L =>
    have hf : f.1 ≠ 0 := ho.ne_zero (ho.mem (by simp))
    simp [backCell, hf]

/-- **Unlinking** the link at one end. -/
lemma unlink_spec (ho : Owned h sz s q (e :: L)) (hl : Linked d s.mem q (e :: L)) :
    Wrote h sz (Words q (e :: L)) s (unlink d s q e.1) ∧
      Linked d (unlink d s q e.1).mem q L ∧ (unlink d s q e.1).mem (data e.1) = e.2 := by
  have heq := unlink_eq ho hl
  have hsz : ∀ b ∈ s.live, 3 ≤ getMemSz s.mem b := fun b hb => (ho.sound.bounds hb).2.2.1
  have hq := ho.mem_queue
  have hnd := (List.nodup_cons.mp ho.nodup).2
  have hidx := d.idx_le
  have hidx' := d.other.idx_le
  have hother := d.idx_other
  rw [List.map_cons, List.nodup_cons] at hnd
  have hwrote : Wrote h sz (Words q (e :: L)) s (unlink d s q e.1) := by
    have hq3 := hsz q hq
    have h1 : Wrote h sz (Words q (e :: L)) s (s.set (d.cell q) (8 * addr L.head?)) := by
      rw [d.cell_eq]
      exact (Wrote.refl ho.sound).set _ hq (by omega) (by simp [Words])
    rw [heq]
    cases L with
    | nil =>
      rw [backCell, d.other.cell_eq]
      exact h1.set _ hq (by omega) (by simp [Words])
    | cons f L =>
      have hf : f.1 ∈ s.live := ho.mem (by simp)
      have hf3 := hsz f.1 hf
      rw [backCell, d.other.away_eq]
      exact h1.set _ hf (by omega) (by simp [Words])
  -- the words that are not written
  have hkeep : ∀ x, x ≠ backCell d q L → x ≠ d.cell q →
      (unlink d s q e.1).mem x = s.mem x := by
    intro x h1 h2
    rw [heq]
    exact (set_ne _ _ h1).trans (set_ne _ _ h2)
  have hlink : ∀ b ∈ e :: L, ∀ j < 3, ∀ d : End, b.1 + j ≠ d.cell q := fun b hb j hj d => by
    rw [d.cell_eq]
    exact ho.word_ne (ho.mem hb) hq hj (by have := d.idx_le; omega) fun h =>
      absurd h (ho.ne_queue hb)
  have hhead : d.cell q ≠ backCell d q L →
      (unlink d s q e.1).mem (d.cell q) = 8 * addr L.head? := by
    intro h1
    rw [heq]
    exact (set_ne _ _ h1).trans (set_self ..)
  have hback : (unlink d s q e.1).mem (backCell d q L) = 0 := by
    rw [heq]
    exact set_self ..
  refine ⟨hwrote, ?_, ?_⟩
  · cases L with
    | nil =>
      refine ⟨.nil, by simp, hhead ?_, hback, by simp, by simp⟩
      rw [backCell, d.cell_eq, d.other.cell_eq]
      omega
    | cons f L =>
      have hf : f ∈ e :: f :: L := by simp
      have hfL : ∀ x ∈ L, x.1 ≠ f.1 := fun x hx heq' => by
        simp only [List.map_cons, List.nodup_cons] at hnd
        exact hnd.2.1 (heq' ▸ List.mem_map_of_mem hx)
      have hword : ∀ x ∈ f :: L, ∀ j < 3, (x.1 = f.1 → j ≠ 1 + d.other.idx) →
          (unlink d s q e.1).mem (x.1 + j) = s.mem (x.1 + j) := fun x hx j hj hne => by
        have hx' : x ∈ e :: f :: L := List.mem_cons_of_mem _ hx
        refine hkeep _ ?_ (hlink x hx' j hj d)
        rw [backCell, d.other.away_eq]
        exact ho.word_ne (ho.mem hx') (ho.mem hf) hj (by omega) hne
      have haway : ∀ x ∈ f :: L, (unlink d s q e.1).mem (d.away x.1) = s.mem (d.away x.1) :=
        fun x hx => by
          rw [d.away_eq]
          exact hword x hx _ (by omega) fun _ => by omega
      refine ⟨joined_congr hl.joined.tail (fun x hx => ?_) fun x hx => ?_, fun x hx => ?_,
        hhead ?_, ?_, ?_, fun x hx => ?_⟩
      · exact haway x (List.dropLast_subset _ hx)
      · rw [d.other.away_eq]
        exact hword x (List.mem_cons_of_mem _ hx) _ (by omega) fun h => absurd h (hfL x hx)
      · exact (hword x hx 0 (by omega) fun _ => by omega).trans
          (hl.data x (List.mem_cons_of_mem _ hx))
      · rw [backCell, d.other.away_eq]
        exact (hlink f hf _ (by omega) d).symm
      · refine (hkeep _ ?_ ?_).trans (by simpa using hl.tail)
        · rw [backCell, d.other.away_eq]
          exact (hlink f hf _ (by omega) d.other).symm
        · rw [d.cell_eq, d.other.cell_eq]
          omega
      · rintro x ⟨⟩
        exact hback
      · exact (haway x (List.mem_of_mem_getLast? hx)).trans (hl.after x (by simpa using hx))
  · have he : e ∈ e :: L := List.mem_cons_self
    rw [← hl.data e he]
    refine hkeep _ ?_ (hlink e he 0 (by omega) d)
    cases L with
    | nil => exact hlink e he 0 (by omega) d.other
    | cons f L =>
      rw [backCell, d.other.away_eq]
      exact ho.word_ne (i := 0) (ho.mem he) (ho.mem (by simp)) (by omega) (by omega)
        fun _ => by omega

/-- **Removing** a link: from an empty queue nothing, else the datum of the link at that end,
whose block is given back if its address is below the bound of `free`. -/
lemma remove_spec (ho : Owned h sz s q (e :: L)) (hl : Linked d s.mem q (e :: L)) :
    ∃ s', remove d h s q = some (s', e.2) ∧ (Frees h sz s s' e.1 ↔ e.1 < freeBound h sz) ∧
      Ext (fun b _ => b ∈ q :: (e :: L).map Prod.fst) s s' ∧
      Owned h sz s' q L ∧ Linked d s'.mem q L := by
  obtain ⟨h1, h2, h3⟩ := unlink_spec ho hl
  obtain ⟨s', h4, h5, h6, h7, h8⟩ := (ho.wrote h1).free (.refl _) h2
  have he0 : e.1 ≠ 0 := ho.ne_zero (ho.mem List.mem_cons_self)
  have hhead : s.mem (d.cell q) = 8 * e.1 := hl.head
  have hptr : s.mem.ptr (d.cell q) = e.1 := ptr_of_eq hhead
  refine ⟨s', ?_, ?_, ?_, h7, h8⟩
  · rw [remove, if_neg (by omega), hptr]
    simp only [h4, h3, Option.map_some]
  · obtain ⟨U, hU⟩ := Owns.of_sound ho.sound
    obtain ⟨p, k, V, hp, hV⟩ := hU.exists_block (ho.mem List.mem_cons_self)
    have hlive : p + 1 ∈ (unlink d s q e.1).live := hp ▸ h1.live ▸ ho.mem List.mem_cons_self
    obtain ⟨s₁, h9, -, -, h10⟩ := (hU.users h1.live h1.rest).1.free hV hlive
    rw [← hp] at h9
    obtain rfl := Option.some.inj (h9.symm.trans h4)
    rw [hp]
    exact hU.frees_iff hV h10
  · refine (h1.ext.trans h6).mono fun b i hb => ?_
    rcases hb with hb | rfl
    · exact hb
    · simp

/-- Removing the last link. -/
lemma queueLast_spec (ho : Owned h sz s q (L ++ [e]))
    (hl : Linked .first s.mem q (L ++ [e])) :
    ∃ s', queueLast h s q = some (s', e.2) ∧ (Frees h sz s s' e.1 ↔ e.1 < freeBound h sz) ∧
      Ext (fun b _ => b ∈ q :: (L ++ [e]).map Prod.fst) s s' ∧
      Owned h sz s' q L ∧ Linked .first s'.mem q L := by
  -- seen from its other end, the queue has the link first
  have hrev : (L ++ [e]).reverse = e :: L.reverse := by simp
  have ho' := ho.perm (List.reverse_perm _).symm
  have hl' := hl.reverse
  rw [hrev] at ho' hl'
  obtain ⟨s', h1, h2, h3, h4, h5⟩ := remove_spec ho' hl'
  have h6 := h5.reverse
  rw [List.reverse_reverse] at h6
  refine ⟨s', h1, h2, h3.mono fun b _ hb => ?_, h4.perm (List.reverse_perm L), h6⟩
  simp only [List.map_cons, List.map_reverse, List.mem_cons, List.mem_reverse, List.map_append,
    List.mem_append, List.map_nil, List.not_mem_nil, or_false] at hb ⊢
  tauto

lemma remove_nil (hl : Linked d s.mem q []) : remove d h s q = some (s, 0) := by
  have hhead : s.mem (d.cell q) = 0 := hl.head
  rw [remove, if_pos hhead]

/-! ### Adding a link -/

lemma linkFirst_eq (ho : Owned h sz s q L) (hl : Linked .first s.mem q L) (ha : a ∈ s.live)
    (hnew : a ∉ q :: L.map Prod.fst) : linkFirst s q a v =
      (((((s.set (data a) v).set (next a) (8 * addr L.head?)).set (prev a) 0).setPtr
        (backCell .first q L) a).setPtr (first q) a) := by
  have hqa : ∀ j < 3, first q ≠ a + j := fun j hj =>
    ho.word_ne (i := 0) ho.mem_queue ha (by omega) hj fun heq =>
      absurd (heq ▸ List.mem_cons_self) hnew
  have hfirst : s.mem (first q) = 8 * addr L.head? := hl.head
  have h1 : (s.set (data a) v).mem (first q) = 8 * addr L.head? :=
    (set_ne _ _ (hqa 0 (by omega))).trans hfirst
  have h2 : (((s.set (data a) v).set (next a) (8 * addr L.head?)).set (prev a) 0).mem
      (first q) = 8 * addr L.head? :=
    (set_ne _ _ (hqa 2 (by omega))).trans ((set_ne _ _ (hqa 1 (by omega))).trans h1)
  simp only [linkFirst, h1, h2, ptr_of_eq h2]
  cases L with
  | nil => simp [backCell, End.cell, End.other]
  | cons f L =>
    have hf : f.1 ≠ 0 := ho.ne_zero (ho.mem (by simp))
    simp [backCell, End.away, End.other, hf]

/-- **Linking** a block before the first link. -/
lemma linkFirst_spec (ho : Owned h sz s q L) (hl : Linked .first s.mem q L) (ha : a ∈ s.live)
    (hnew : a ∉ q :: L.map Prod.fst) :
    Wrote h sz (fun b _ => b ∈ q :: a :: L.map Prod.fst) s (linkFirst s q a v) ∧
      Linked .first (linkFirst s q a v).mem q ((a, v) :: L) := by
  have heq := linkFirst_eq (v := v) ho hl ha hnew
  have hsz : ∀ b ∈ s.live, 3 ≤ getMemSz s.mem b := fun b hb => (ho.sound.bounds hb).2.2.1
  have hq := ho.mem_queue
  have ha3 := hsz a ha
  have hq3 := hsz q hq
  rw [List.mem_cons, not_or] at hnew
  obtain ⟨haq, haL⟩ := hnew
  -- where the queue is led back to the new link
  obtain ⟨b, j, hcell, hcase⟩ : ∃ b j, backCell .first q L = b + j ∧
      (L = [] ∧ b = q ∧ j = 1 ∨ ∃ f L', L = f :: L' ∧ b = f.1 ∧ j = 2) := by
    cases L with
    | nil => exact ⟨q, 1, rfl, .inl ⟨rfl, rfl, rfl⟩⟩
    | cons f L => exact ⟨f.1, 2, rfl, .inr ⟨f, L, rfl, rfl, rfl⟩⟩
  obtain ⟨hb, hj, hbW, hba⟩ : b ∈ s.live ∧ j < 3 ∧ b ∈ q :: a :: L.map Prod.fst ∧ b ≠ a := by
    rcases hcase with ⟨rfl, rfl, rfl⟩ | ⟨f, L', rfl, rfl, rfl⟩
    · exact ⟨hq, by omega, by simp, Ne.symm haq⟩
    · refine ⟨ho.mem (by simp), by omega, by simp, ?_⟩
      rintro rfl
      exact haL (by simp)
  have hwrote : Wrote h sz (fun b _ => b ∈ q :: a :: L.map Prod.fst) s (linkFirst s q a v) := by
    have hb3 := hsz b hb
    rw [heq, hcell]
    refine (((((Wrote.refl ho.sound).set (a := a) (i := 0) v ha (by omega) ?_).set (i := 1) _ ha
      (by omega) ?_).set (i := 2) 0 ha (by omega) ?_).set _ hb (by omega) hbW).set (a := q)
        (i := 0) _ hq (by omega) ?_
    all_goals simp
  have hmem : ∀ x, (linkFirst s q a v).mem x = if x = q then 8 * a else if x = b + j then 8 * a
      else if x = a + 2 then 0 else if x = a + 1 then 8 * addr L.head? else if x = a then v
      else s.mem x := fun x => by
    rw [heq, hcell]
    rfl
  have hne : ∀ {c i c' i'}, c ∈ s.live → c' ∈ s.live → i < 3 → i' < 3 → (c = c' → i ≠ i') →
      c + i ≠ c' + i' := fun hc hc' hi hi' h => ho.word_ne hc hc' hi hi' h
  -- the words of the links, but for the one that is led back
  have hword : ∀ x ∈ L, ∀ i < 3, (x.1 = b → i ≠ j) →
      (linkFirst s q a v).mem (x.1 + i) = s.mem (x.1 + i) := fun x hx i hi hxb => by
    have hxl := ho.mem hx
    have hxa : x.1 ≠ a := fun h => haL (h ▸ List.mem_map_of_mem hx)
    have hxq := ho.ne_queue hx
    rw [hmem, if_neg, if_neg (hne hxl hb hi hj hxb), if_neg, if_neg, if_neg]
    · exact hne hxl ha hi (show 0 < 3 by omega) fun h => absurd h hxa
    · exact hne hxl ha hi (by omega) fun h => absurd h hxa
    · exact hne hxl ha hi (by omega) fun h => absurd h hxa
    · exact hne hxl hq hi (show 0 < 3 by omega) fun h => absurd h hxq
  have hnew : ∀ i < 3, (linkFirst s q a v).mem (a + i) = if i = 2 then 0 else
      if i = 1 then 8 * addr L.head? else v := fun i hi => by
    rw [hmem, if_neg, if_neg]
    · rcases (by omega : i = 0 ∨ i = 1 ∨ i = 2) with rfl | rfl | rfl <;> simp
    · exact hne ha hb hi hj fun h => absurd h.symm hba
    · exact hne ha hq hi (show 0 < 3 by omega) fun h => absurd h haq
  have hback : (linkFirst s q a v).mem (b + j) = 8 * a := by
    rw [hmem, if_pos rfl, ite_self]
  refine ⟨hwrote, ?_, fun x hx => ?_, by simp [hmem, End.cell, first], ?_, ?_, fun x hx => ?_⟩
  · rcases hcase with ⟨rfl, -⟩ | ⟨f, L', rfl, rfl, rfl⟩
    · exact .singleton _
    · have hnd := (List.nodup_cons.mp ho.nodup).2
      rw [List.map_cons, List.nodup_cons] at hnd
      refine List.isChain_cons_cons.mpr ⟨⟨hnew 1 (by omega), hback⟩, joined_congr hl.joined
        (fun x hx => ?_) fun x hx => ?_⟩
      · exact hword x (List.dropLast_subset _ hx) 1 (by omega) fun _ => by omega
      · refine hword x (List.mem_cons_of_mem _ hx) 2 (by omega) fun heq' => ?_
        exact absurd (heq' ▸ List.mem_map_of_mem hx) hnd.1
  · rcases List.mem_cons.mp hx with rfl | hx
    · exact hnew 0 (by omega)
    · refine (hword x hx 0 (by omega) fun _ => ?_).trans (hl.data x hx)
      rcases hcase with ⟨-, -, rfl⟩ | ⟨-, -, -, -, rfl⟩ <;> omega
  · rcases hcase with ⟨rfl, rfl, rfl⟩ | ⟨f, L', rfl, rfl, rfl⟩
    · exact hback
    · have hlast : (linkFirst s q a v).mem (q + 1) = s.mem (q + 1) := by
        rw [hmem, if_neg (by omega), if_neg, if_neg, if_neg, if_neg]
        · exact hne hq ha (by omega) (show 0 < 3 by omega) fun h => absurd h.symm haq
        · exact hne hq ha (by omega) (by omega) fun h => absurd h.symm haq
        · exact hne hq ha (by omega) (by omega) fun h => absurd h.symm haq
        · exact hne hq hb (by omega) (by omega) fun _ => by omega
      exact hlast.trans (hl.tail.trans (by simp))
  · rintro x ⟨⟩
    exact hnew 2 (by omega)
  · rcases hcase with ⟨rfl, rfl, rfl⟩ | ⟨f, L', rfl, rfl, rfl⟩
    · obtain rfl : (a, v) = x := by simpa using hx
      exact hnew 1 (by omega)
    · have hx' : x ∈ (f :: L').getLast? := by simpa using hx
      exact (hword x (List.mem_of_mem_getLast? hx') 1 (by omega) fun _ => by omega).trans
        (hl.after x hx')

/-- **`queue_push`** takes a block for a link; nothing changes where there is none. -/
lemma queuePush_spec (v : ℕ) (ho : Owned h sz s q L) (hl : Linked .first s.mem q L) :
    (¬ Room h sz s (need linkSz) ∧ queuePush h s q v = some (s, 0)) ∨
    Room h sz s (need linkSz) ∧ ∃ s' a, queuePush h s q v = some (s', a) ∧ a ≠ 0 ∧
      a ∉ s.live ∧ Takes h sz s s' a ∧ Ext (fun b _ => b ∈ q :: L.map Prod.fst) s s' ∧
      Owned h sz s' q ((a, v) :: L) ∧ Linked .first s'.mem q ((a, v) :: L) ∧
      ∀ x, Room h sz s (x + need linkSz + minAllocSz) → Room h sz s' x := by
  have hn : linkSz + umdsSz < wordMod := by decide
  obtain ⟨lost, t, U, hi⟩ := id ho.sound
  obtain ⟨s₁, a, h1, hspec⟩ := alloc_meets hi hn
  have hfound := alloc_found_iff ho.sound hn h1
  by_cases h0 : a = 0
  · subst h0
    obtain rfl := hspec.unchanged rfl
    exact .inl ⟨fun hr => hfound.mpr hr rfl, by simp [queuePush, h1]⟩
  · obtain ⟨h2, h3, h4, h5⟩ := alloc_ext ho.sound hn h1 h0
    have hfresh : a ∉ s.live := by
      have := h2.nodup
      rw [h4] at this
      exact (List.nodup_cons.mp this).1
    have hword : ∀ b ∈ q :: L.map Prod.fst, ∀ i < 3, s₁.mem (b + i) = s.mem (b + i) := by
      intro b hb i hi
      have h6 := (ho.sound.bounds (ho.live b hb)).2.2.1
      exact (h3 b (ho.live b hb) i (by omega) (by simp)).word
    have ho₁ : Owned h sz s₁ q L :=
      ⟨h2, fun b hb => h4 ▸ List.mem_cons_of_mem _ (ho.live b hb), ho.nodup⟩
    have hl₁ : Linked .first s₁.mem q L := hl.congr
      (fun i hi => hword q List.mem_cons_self i (by omega)) fun e he =>
        hword e.1 (List.mem_cons_of_mem _ (List.mem_map_of_mem he))
    have ha : a ∈ s₁.live := by simp [h4]
    have hnew : a ∉ q :: L.map Prod.fst := fun h => hfresh (ho.live a h)
    obtain ⟨h6, h7⟩ := linkFirst_spec (v := v) ho₁ hl₁ ha hnew
    refine .inr ⟨hfound.mp h0, _, a, by simp [queuePush, h1, h0], h0, hfresh, ?_, ?_,
      ⟨h6.sound, ?_, ?_⟩, h7, fun x hr => h6.room x (alloc_room hn h1 hr).2⟩
    · obtain ⟨U, hU⟩ := Owns.of_sound ho.sound
      obtain ⟨p, k, hp, hU₁⟩ := hU.alloc hn h1 h0
      exact ⟨p, k, U, hp, hU, (hU₁.users h6.live h6.rest).1⟩
    · intro b hb i hi hnot
      have h8 := h3 b hb i hi (by simp)
      have h9 := h6.ext b h8.live i (by rwa [h8.memSz]) (by
        simp only [List.mem_cons, not_or] at hnot ⊢
        exact ⟨hnot.1, fun h => hfresh (h ▸ hb), hnot.2⟩)
      exact ⟨h9.live, h9.memSz.trans h8.memSz, h9.word.trans h8.word⟩
    · intro b hb
      rw [h6.live]
      simp only [List.map_cons, List.mem_cons] at hb
      rcases hb with rfl | rfl | hb
      · exact ho₁.mem_queue
      · exact ha
      · exact ho₁.live b (by simp [hb])
    · have h8 := ho.nodup
      simp only [List.map_cons, List.nodup_cons, List.mem_cons, not_or] at hnew h8 ⊢
      exact ⟨⟨Ne.symm hnew.1, h8.1⟩, hnew.2, h8.2⟩

/-! ### The runs of a queue -/

/-- The heap, and the double-ended sequence that the queue stands for. -/
structure QSt where
  heap : HSt
  items : List Item

/-- The steps: the three operations of the queue at `q`, and what the other users of the heap do
outside the blocks of the queue. -/
inductive QStep (h sz q : ℕ) (s : QSt) : QSt → Prop
  | push {v a : ℕ} {s' : HSt} (hr : queuePush h s.heap q v = some (s', a)) (h0 : a ≠ 0) :
    QStep h sz q s ⟨s', (a, v) :: s.items⟩
  | pop {v : ℕ} {s' : HSt} (hr : queuePop h s.heap q = some (s', v)) :
    QStep h sz q s ⟨s', s.items.tail⟩
  | last {v : ℕ} {s' : HSt} (hr : queueLast h s.heap q = some (s', v)) :
    QStep h sz q s ⟨s', s.items.dropLast⟩
  | other {s' : HSt} (hs : Sound h sz s')
    (hx : Ext (fun a _ => a ∉ q :: s.items.map Prod.fst) s.heap s') :
    QStep h sz q s ⟨s', s.items⟩

/-- The runs of the queue at `q`, from its construction in a heap that is in order. -/
def queueSystem (h sz q : ℕ) : System QSt where
  init s := s.items = [] ∧ q ≠ 0 ∧ ∃ s₀, Sound h sz s₀ ∧ queue h s₀ = some (s.heap, q)
  step := QStep h sz q

/-- The invariant. -/
structure QInv (h sz q : ℕ) (s : QSt) : Prop where
  owned : Owned h sz s.heap q s.items
  linked : Linked .first s.heap.mem q s.items

lemma queue_inv {s₀ : HSt} (hs : Sound h sz s₀) (hr : queue h s₀ = some (s, q)) (h0 : q ≠ 0) :
    QInv h sz q ⟨s, []⟩ := by
  obtain ⟨⟨s₁, a⟩, h1, h2⟩ := Option.map_eq_some_iff.mp hr
  have hn : queueSz + umdsSz < wordMod := by decide
  by_cases ha : a = 0
  · simp only [ha, if_true, Prod.mk.injEq] at h2
    exact absurd h2.2.symm h0
  · simp only [ha, if_false, Prod.mk.injEq] at h2
    obtain ⟨rfl, rfl⟩ := h2
    obtain ⟨h3, -, h4, -⟩ := alloc_ext hs hn h1 ha
    have hlive : a ∈ s₁.live := by simp [h4]
    have hsz := (h3.bounds hlive).2.2.1
    have hw : Wrote h sz (fun b _ => b = a) s₁ ((s₁.set (first a) 0).set (last a) 0) :=
      ((Wrote.refl h3).set (a := a) (i := 0) 0 hlive (by omega) rfl).set (i := 1) 0 hlive
        (by omega) rfl
    have hfirst : (s₁.mem.set (first a) 0) (first a) = 0 := set_self ..
    refine ⟨⟨hw.sound, fun b hb => ?_, by simp⟩, .nil, by simp, ?_, set_self .., by simp, by simp⟩
    · obtain rfl : b = a := by simpa using hb
      exact hw.live ▸ hlive
    · exact (set_ne _ _ (by simp [End.cell, first, last])).trans hfirst

/-- **Each step** keeps the queue in order. -/
lemma QInv.step {s s' : QSt} (hi : QInv h sz q s) (hs : QStep h sz q s s') : QInv h sz q s' := by
  obtain ⟨ho, hl⟩ := hi
  cases hs with
  | push hr h0 =>
    rcases queuePush_spec _ ho hl with ⟨-, h1⟩ | ⟨-, s₁, a, h1, -, -, -, -, h2, h3, -⟩
    · exact absurd (Prod.mk.inj (Option.some.inj (h1.symm.trans hr))).2.symm h0
    · obtain ⟨rfl, rfl⟩ := Prod.mk.inj (Option.some.inj (h1.symm.trans hr))
      exact ⟨h2, h3⟩
  | pop hr =>
    obtain ⟨s, L⟩ := s
    cases L with
    | nil =>
      obtain ⟨rfl, -⟩ := Prod.mk.inj (Option.some.inj ((remove_nil hl).symm.trans hr))
      exact ⟨ho, hl⟩
    | cons e L =>
      obtain ⟨s₁, h1, -, -, h2, h3⟩ := remove_spec ho hl
      obtain ⟨rfl, -⟩ := Prod.mk.inj (Option.some.inj (h1.symm.trans hr))
      exact ⟨h2, h3⟩
  | last hr =>
    obtain ⟨s, L⟩ := s
    rcases L.eq_nil_or_concat' with rfl | ⟨L, e, rfl⟩
    · obtain ⟨rfl, -⟩ := Prod.mk.inj (Option.some.inj ((remove_nil hl.reverse).symm.trans hr))
      exact ⟨ho, hl⟩
    · obtain ⟨s₁, h1, -, -, h2, h3⟩ := queueLast_spec ho hl
      obtain ⟨rfl, -⟩ := Prod.mk.inj (Option.some.inj (h1.symm.trans hr))
      simp only [List.dropLast_concat]
      exact ⟨h2, h3⟩
  | @other s' hs hx =>
    have hword : ∀ a ∈ q :: s.items.map Prod.fst, ∀ i < 3,
        Survives s.heap s' a i := fun a ha i hi => by
      have := (ho.sound.bounds (ho.live a ha)).2.2.1
      exact hx a (ho.live a ha) i (by omega) (not_not_intro ha)
    refine ⟨⟨hs, fun a ha => (hword a ha 0 (by omega)).live, ho.nodup⟩, hl.congr ?_ ?_⟩
    · exact fun i hi => (hword q List.mem_cons_self i (by omega)).word
    · exact fun e he i hi =>
        (hword e.1 (List.mem_cons_of_mem _ (List.mem_map_of_mem he)) i hi).word

lemma queue_reachable {s : QSt} (hs : (queueSystem h sz q).Reachable s) : QInv h sz q s := by
  have hinv : (queueSystem h sz q).Invariant (QInv h sz q) := by
    constructor
    · rintro ⟨s, L⟩ ⟨hL, h0, s₀, h1, h2⟩
      obtain rfl : L = [] := hL
      exact queue_inv h1 h2 h0
    · exact fun s s' hi hs => hi.step hs
  exact hinv.reachable hs

/-- The list is in order: its ends, and its pointers forth and back, which are inverse to each
other. -/
structure Consistent (m : Mem) (q : ℕ) (L : List Item) : Prop where
  first : m (first q) = 8 * addr L.head?
  last : m (last q) = 8 * addr L.getLast?
  empty : (m (Queue.first q) = 0 ↔ L = []) ∧ (m (Queue.last q) = 0 ↔ L = [])
  data : ∀ e ∈ L, m (data e.1) = e.2
  next : ∀ i < L.length, m (next (addr L[i]?)) = 8 * addr L[i + 1]?
  prev : ∀ i < L.length, m (prev (addr L[i]?)) = if i = 0 then 0 else 8 * addr L[i - 1]?
  inverse : ∀ e ∈ L, ∀ f ∈ L, m (Queue.next e.1) = 8 * f.1 ↔ m (Queue.prev f.1) = 8 * e.1

lemma Linked.consistent (ho : Owned h sz s q L) (hl : Linked .first s.mem q L) :
    Consistent s.mem q L := by
  have hchain := List.isChain_iff_getElem.mp hl.joined
  have hzero : ∀ e ∈ L, e.1 ≠ 0 := fun e he => ho.ne_zero (ho.mem he)
  have hnext : ∀ i < L.length, s.mem (Queue.next (addr L[i]?)) = 8 * addr L[i + 1]? := by
    intro i hi
    rw [List.getElem?_eq_getElem hi]
    by_cases h1 : i + 1 < L.length
    · rw [List.getElem?_eq_getElem h1]
      exact (hchain i h1).1
    · rw [List.getElem?_eq_none (by omega)]
      exact hl.after _ (by rw [List.getLast?_eq_getElem?]; simp [show L.length - 1 = i by omega])
  have hprev : ∀ i < L.length, s.mem (prev (addr L[i]?)) =
      if i = 0 then 0 else 8 * addr L[i - 1]? := by
    intro i hi
    rw [List.getElem?_eq_getElem hi]
    obtain _ | i := i
    · exact hl.before _ (by rw [List.head?_eq_getElem?]; simp [hi])
    · rw [if_neg (by omega), Nat.add_sub_cancel, List.getElem?_eq_getElem (by omega)]
      exact (hchain i hi).2
  have hinj : ∀ i j (hi : i < L.length) (hj : j < L.length), L[i].1 = L[j].1 → i = j := by
    intro i j hi hj heq
    have hnd := (List.nodup_cons.mp ho.nodup).2
    have hinj := @List.Nodup.getElem_inj_iff _ _ hnd i (by simpa using hi) j (by simpa using hj)
    exact hinj.mp (by simpa using heq)
  have hempty : ∀ x o, s.mem x = 8 * addr o → (∀ e ∈ o, e ∈ L) → (o = none ↔ L = []) →
      (s.mem x = 0 ↔ L = []) := by
    intro x o hx ho hnone
    rw [hx, ← hnone]
    cases o with
    | none => simp
    | some e => simpa using hzero e (ho e rfl)
  refine ⟨hl.head, hl.tail, ⟨?_, ?_⟩, hl.data, hnext, hprev, fun e he f hf => ?_⟩
  · exact hempty _ _ hl.head (fun e he => List.mem_of_mem_head? he) (by simp)
  · exact hempty _ _ hl.tail (fun e he => List.mem_of_mem_getLast? he) (by simp)
  · -- both say that the link of `f` comes right after that of `e`
    obtain ⟨i, hi, rfl⟩ := List.getElem_of_mem he
    obtain ⟨j, hj, rfl⟩ := List.getElem_of_mem hf
    have h1 : s.mem (next L[i].1) = 8 * addr L[i + 1]? := by
      simpa [List.getElem?_eq_getElem hi] using hnext i hi
    have h2 : s.mem (prev L[j].1) = if j = 0 then 0 else 8 * addr L[j - 1]? := by
      simpa [List.getElem?_eq_getElem hj] using hprev j hj
    have hi0 := hzero _ he
    have hj0 := hzero _ hf
    have hleft : s.mem (next L[i].1) = 8 * L[j].1 ↔ i + 1 = j := by
      rw [h1]
      by_cases h3 : i + 1 < L.length
      · rw [List.getElem?_eq_getElem h3, addr_some]
        refine ⟨fun h => hinj _ _ h3 hj (by omega), ?_⟩
        rintro rfl
        rfl
      · rw [List.getElem?_eq_none (by omega), addr_none]
        omega
    have hright : s.mem (prev L[j].1) = 8 * L[i].1 ↔ i + 1 = j := by
      rw [h2]
      obtain _ | j := j
      · rw [if_pos rfl]
        omega
      · rw [if_neg (by omega), Nat.add_sub_cancel, List.getElem?_eq_getElem (by omega), addr_some]
        refine ⟨fun h => ?_, ?_⟩
        · have := hinj j i (by omega) hi (by omega)
          omega
        · rintro ⟨⟩
          rfl
    exact hleft.trans hright.symm

/-- What a push should do: put the datum in front, in a new link for which just one block is taken,
or nothing where there is no block for a link. -/
def Pushes (h sz q : ℕ) (s : QSt) (v : ℕ) : Prop :=
  (Room h sz s.heap (need linkSz) → ∃ s' a, queuePush h s.heap q v = some (s', a) ∧ a ≠ 0 ∧
    a ∉ s.heap.live ∧ Takes h sz s.heap s' a ∧
    (queueSystem h sz q).Reachable ⟨s', (a, v) :: s.items⟩) ∧
  (¬ Room h sz s.heap (need linkSz) → queuePush h s.heap q v = some (s.heap, 0))

/-- What a removal should give back: the block of the link `o`, if there is one, and no other. -/
def FreesLink (h sz : ℕ) (s s' : HSt) : Option Item → Prop
  | none => s' = s
  | some e => Frees h sz s s' e.1

/-- The datum of a link, or null where there is none. -/
def datum (o : Option Item) : ℕ := (o.map Prod.snd).getD 0

/-- A removal gives the datum of the link `o`, and leaves the queue `L`; it gives back just the
block of the link exactly if its address is below the bound of `free`. -/
def Removes (h sz q : ℕ) (s : HSt) (o : Option Item) (L : List Item)
    (r : Option (HSt × ℕ)) : Prop :=
  ∃ s', r = some (s', datum o) ∧ (queueSystem h sz q).Reachable ⟨s', L⟩ ∧
    (FreesLink h sz s s' o ↔ ∀ e ∈ o, e.1 < freeBound h sz)

/-- **A queue** is a double-ended sequence in every state of every run, and each removal frees one
link exactly if its address is below the bound of `free`. -/
theorem queue_refines_iff {s : QSt} (hs : (queueSystem h sz q).Reachable s) :
    Consistent s.heap.mem q s.items ∧ (∀ e ∈ s.items, e.1 ∈ s.heap.live) ∧
      s.heap.live.Nodup ∧ (∀ v, Pushes h sz q s v) ∧
      Removes h sz q s.heap s.items.head? s.items.tail (queuePop h s.heap q) ∧
      Removes h sz q s.heap s.items.getLast? s.items.dropLast (queueLast h s.heap q) := by
  have hi := queue_reachable hs
  obtain ⟨ho, hl⟩ := hi
  refine ⟨hl.consistent ho, fun e he => ho.mem he, ho.sound.nodup, fun v => ?_, ?_, ?_⟩
  · rcases queuePush_spec v ho hl with ⟨h1, h2⟩ | ⟨h1, s', a, h2, h3, h4, h5, -⟩
    · exact ⟨fun hr => absurd hr h1, fun _ => h2⟩
    · exact ⟨fun _ => ⟨s', a, h2, h3, h4, h5, hs.step (.push h2 h3)⟩, fun hn => absurd h1 hn⟩
  · obtain ⟨s, L⟩ := s
    cases L with
    | nil =>
      have hr : queuePop h s q = some (s, 0) := remove_nil hl
      exact ⟨s, hr, hs.step (.pop hr), iff_of_true rfl (by simp)⟩
    | cons e L =>
      obtain ⟨s', h1, h2, -⟩ := remove_spec ho hl
      exact ⟨s', h1, hs.step (.pop h1), h2.trans (by simp)⟩
  · obtain ⟨s, L⟩ := s
    rcases L.eq_nil_or_concat' with rfl | ⟨L, e, rfl⟩
    · have hr : queueLast h s q = some (s, 0) := remove_nil hl.reverse
      exact ⟨s, hr, hs.step (.last hr), iff_of_true rfl (by simp)⟩
    · obtain ⟨s', h1, h2, -⟩ := queueLast_spec ho hl
      simp only [List.getLast?_concat]
      exact ⟨s', h1, hs.step (.last h1), h2.trans (by simp)⟩

/-- With room for it there is a new queue. -/
lemma queue_room {x : ℕ} (hr : Room h sz s (x + need queueSz + minAllocSz)) :
    ∃ s' q, queue h s = some (s', q) ∧ q ≠ 0 ∧ Room h sz s' x := by
  have hn : queueSz + umdsSz < wordMod := by decide
  obtain ⟨lost, t, U, hi⟩ := hr.sound
  obtain ⟨s₁, q, h1, -⟩ := alloc_meets hi hn
  obtain ⟨hq, hroom⟩ := alloc_room hn h1 hr
  obtain ⟨hs₁, -, hlive, -⟩ := alloc_ext hr.sound hn h1 hq
  have hq₁ : q ∈ s₁.live := by simp [hlive]
  have hsz := (hs₁.bounds hq₁).2.2.1
  have hw : Wrote h sz (fun b _ => b = q) s₁ ((s₁.set (first q) 0).set (last q) 0) :=
    ((Wrote.refl hs₁).set (a := q) (i := 0) 0 hq₁ (by omega) rfl).set (i := 1) 0 hq₁
      (by omega) rfl
  refine ⟨_, q, ?_, hq, hw.room x hroom⟩
  rw [queue, h1, Option.map_some]
  exact congrArg some (if_neg hq)

/-- With room for it a datum can be pushed. -/
lemma push_room {x : ℕ} {s : QSt} (v : ℕ) (hs : (queueSystem h sz q).Reachable s)
    (hr : Room h sz s.heap (x + need linkSz + minAllocSz)) :
    ∃ s' a, (queueSystem h sz q).Reachable ⟨s', (a, v) :: s.items⟩ ∧ Room h sz s' x := by
  obtain ⟨ho, hl⟩ := queue_reachable hs
  rcases queuePush_spec v ho hl with ⟨h1, -⟩ | ⟨-, s', a, h1, h2, -, -, -, -, -, h3⟩
  · exact absurd (hr.mono (by omega)) h1
  · exact ⟨s', a, hs.step (.push h1 h2), h3 x hr⟩

/-- A queue to which the data `5` and `6` have been pushed. -/
lemma exists_pushed (h0 : h ≠ 0) (hroom : h + 2 ^ 17 < addrSpace) :
    ∃ q s a b, (queueSystem h (2 ^ 17) q).Reachable s ∧ s.items = [(b, 6), (a, 5)] ∧
      Room h (2 ^ 17) s.heap (need linkSz) := by
  obtain ⟨s₀, -, -, h1, -⟩ := exists_blocks h0 hroom 0 (by decide)
  obtain ⟨s₁, q, h2, h3, h4⟩ := queue_room (x := 100) (h1.mono (by decide))
  have hinit : (queueSystem h (2 ^ 17) q).Reachable ⟨s₁, []⟩ :=
    .init ⟨rfl, h3, s₀, h1.sound, h2⟩
  obtain ⟨s₂, a, h5, h6⟩ := push_room (x := 50) 5 hinit (h4.mono (by decide))
  obtain ⟨s₃, b, h7, h8⟩ := push_room (x := need linkSz) 6 h5 (h6.mono (by decide))
  exact ⟨q, _, a, b, h7, rfl, h8⟩

/-- In a heap of a megabyte at the address `8` a datum is pushed to two others; then the last and
the first are removed. -/
theorem queue_refines_low : ∃ (q a b c : ℕ) (s s₁ s₂ s₃ : HSt),
    (queueSystem 1 (2 ^ 17) q).Reachable ⟨s, [(b, 6), (a, 5)]⟩ ∧
    queuePush 1 s q 7 = some (s₁, c) ∧ Takes 1 (2 ^ 17) s s₁ c ∧
    Consistent s₁.mem q [(c, 7), (b, 6), (a, 5)] ∧
    queueLast 1 s₁ q = some (s₂, 5) ∧ Frees 1 (2 ^ 17) s₁ s₂ a ∧
    queuePop 1 s₂ q = some (s₃, 7) ∧ Frees 1 (2 ^ 17) s₂ s₃ c ∧ Consistent s₃.mem q [(b, 6)] := by
  obtain ⟨q, ⟨s, L⟩, a, b, hs, hL, hr⟩ := @exists_pushed 1 (by decide) (by decide)
  obtain rfl : L = _ := hL
  obtain ⟨-, -, -, h1, -⟩ := queue_refines_iff hs
  obtain ⟨s₁, c, h2, -, -, h3, hs₁⟩ := (h1 7).1 hr
  have hlow : ∀ {s : QSt}, (queueSystem 1 (2 ^ 17) q).Reachable s →
      ∀ e ∈ s.items, e.1 < freeBound 1 (2 ^ 17) := by
    intro s hs e he
    obtain ⟨ho, -⟩ := queue_reachable hs
    have := ho.sound.bounds (ho.mem he)
    exact lt_freeBound (by decide) (by omega)
  obtain ⟨h4, -, -, -, -, s₂, h5, hs₂, h6⟩ := queue_refines_iff hs₁
  obtain ⟨-, -, -, -, ⟨s₃, h7, hs₃, h8⟩, -⟩ := queue_refines_iff hs₂
  obtain ⟨h9, -⟩ := queue_refines_iff hs₃
  exact ⟨q, a, b, c, s, s₁, s₂, s₃, hs, h2, h3, h4, h5,
    h6.mpr fun e he => hlow hs₁ e (List.mem_of_mem_getLast? he), h7,
    h8.mpr fun e he => hlow hs₂ e (List.mem_of_mem_head? he), h9⟩

/-- In the heap at the address `0xffff000000000000` a removal frees nothing. -/
theorem queue_keeps_link : ¬ ∀ (h sz q : ℕ) (s : QSt), (queueSystem h sz q).Reachable s →
    ∃ s', queuePop h s.heap q = some (s', datum s.items.head?) ∧
      FreesLink h sz s.heap s' s.items.head? := by
  intro hall
  obtain ⟨q, ⟨s, L⟩, a, b, hs, hL, -⟩ :=
    @exists_pushed (2 ^ 61 - 2 ^ 45) (by decide) (by decide)
  obtain rfl : L = _ := hL
  obtain ⟨ho, hl⟩ := queue_reachable hs
  obtain ⟨s', h1, h2⟩ := hall _ _ q _ hs
  obtain ⟨s₁, h3, h4, -⟩ := remove_spec ho hl
  obtain ⟨rfl, -⟩ := Prod.mk.inj (Option.some.inj (h3.symm.trans h1))
  have hlow := h4.mp h2
  have hb := (ho.sound.bounds (ho.mem List.mem_cons_self)).1
  have hbound : freeBound (2 ^ 61 - 2 ^ 45) (2 ^ 17) ≤ 2 ^ 61 - 2 ^ 45 := by decide
  omega

end LispMachine.Queue
