import LispMachine.Namespace
import LispMachine.NumObj

/-!
Insertions that are refused.

A set refuses a datum whose key it has, and any datum when there is no node for it. By then the
references to the datum have been counted, and those of the pair it may be; a pair for which there
is no memory is inserted as the null pointer. The node of a datum that is refused is given back,
which `free` does for an address below its bound only.
-/

namespace LispMachine.SetRefused

open LispMachine.Memory LispMachine.AvlCode LispMachine.AvlRepr LispMachine.AvlInsert
open LispMachine.Alloc LispMachine.HeapInv LispMachine.Heap LispMachine.HeapFrame
open LispMachine.HeapRuns LispMachine.Owned LispMachine.NumObj LispMachine.Object LispMachine.Sets
open LispMachine.SetsCmp LispMachine.SetsInv LispMachine.Namespace LispMachine.Lib.BalTree
open LispMachine.Lib.BalTree.BTree
open LispMachine.AvlTree (data_of_mem)

variable {h sz st : ℕ} {s s' : HSt} {t : T} {W : ℕ → ℕ → Prop} {cmp : Cmp}
  {kf : Mem → ℕ → List ℕ}

/-! ### Sets in the order of a comparator -/

/-- The comparator compares data by what `kf` takes for their keys. -/
def Compares (cmp : Cmp) (kf : Mem → ℕ → List ℕ) : Prop :=
  ∀ m n₁ n₂, cmp m n₁ n₂ = threeWay (rank (kf m (data m n₁))) (rank (kf m (data m n₂)))

/-- The key of a pair, and of an object that is its own. -/
def pairKey (m : Mem) (d : ℕ) : List ℕ := text m (keyOf m d)
def selfKey (m : Mem) (d : ℕ) : List ℕ := text m (d / 8)

lemma setKeycmp_compares : Compares setKeycmp pairKey := fun _ _ _ => objCmp_eq ..
lemma setCmp_compares : Compares setCmp selfKey := fun _ _ _ => objCmp_eq ..

/-- The key of the datum is made of words of blocks, and not of counts of references. -/
def Keyed (kf : Mem → ℕ → List ℕ) (s : HSt) (d : ℕ) : Prop :=
  ∀ s', Ext (fun _ i => i = 0) s s' → kf s'.mem d = kf s.mem d

/-- The set `st` is the tree `t`, in the order of the keys, and has no null datum. -/
structure OrdSet (kf : Mem → ℕ → List ℕ) (h sz st : ℕ) (s : HSt) (t : T) : Prop where
  tree : TreeAt h sz st s t
  keyed : ∀ e ∈ t.toList, Keyed kf s e.2
  sorted : (t.toList.map fun e => rank (kf s.mem e.2)).Pairwise (· < ·)
  nonnull : ∀ e ∈ t.toList, e.2 / 8 ≠ 0

/-- The words that change when references are counted: none of a node. -/
def Counts (t : T) (W : ℕ → ℕ → Prop) : Prop := ∀ a i, W a i → i = 0 ∧ a ∉ addrs t

lemma Keyed.ext {d : ℕ} (hk : Keyed kf s d) (hx : Ext W s s') (hW : ∀ a i, W a i → i = 0) :
    Keyed kf s' d ∧ kf s'.mem d = kf s.mem d := by
  have h1 := hk s' (hx.mono hW)
  refine ⟨fun s'' hx' => ?_, h1⟩
  refine (hk s'' ((hx.trans hx').mono ?_)).trans h1.symm
  exact fun a i hw => hw.elim (hW a i) id

lemma OrdSet.ext (hg : OrdSet kf h sz st s t) (hs' : Sound h sz s') (hx : Ext W s s')
    (hW : Counts t W) : OrdSet kf h sz st s' t := by
  have hkeyed : ∀ e ∈ t.toList, Keyed kf s' e.2 ∧ kf s'.mem e.2 = kf s.mem e.2 := fun e he =>
    (hg.keyed e he).ext hx fun a i hw => (hW a i hw).1
  refine ⟨hg.tree.ext hs' hx (fun hw => absurd (hW _ _ hw).1 (by omega)) fun nd hnd i _ hw =>
    (hW _ _ hw).2 hnd, fun e he => (hkeyed e he).1, ?_, hg.nonnull⟩
  have hsame : (t.toList.map fun e => rank (kf s'.mem e.2)) =
      t.toList.map fun e => rank (kf s.mem e.2) :=
    List.map_congr_left fun e he => congrArg rank (hkeyed e he).2
  rw [hsame]
  exact hg.sorted

lemma isObj_keyed {d : ℕ} (hd : IsObj s (d / 8)) : Keyed selfKey s d := fun _ hx =>
  (hd.ext hx fun i _ h0 => absurd h0 (by omega)).2

/-- A namespace is such a set. -/
lemma ordSet_of_good {S : SetsInv.St} (hg : Good h sz st S t) :
    OrdSet pairKey h sz st S.heap t := by
  refine ⟨hg.tree, fun e he s' hx => ?_, hg.sorted, fun e he h0 => ?_⟩
  · have h1 := ((hg.pairs e he).ext (M := addrs t) hx (fun i _ h0 => absurd h0 (by omega))
      (fun i _ h0 => absurd h0 (by omega)) fun _ hx => .inl hx).2.1
    exact congrArg Prod.fst h1
  · have := hg.sound.bounds (hg.pairs e he).live
    omega

/-- No node of the set has a null datum. -/
def NoNull (st : ℕ) (m : Mem) : Prop := ∀ nd, IsNode m (contents st 0) nd → dataPtr m nd ≠ 0

lemma data_node {m : Mem} {nd : ℕ} (hh : Holds m (contents st 0) t)
    (hn : IsNode m (contents st 0) nd) : ∃ e ∈ t.toList, data m nd = e.2 := by
  obtain ⟨e, he, rfl⟩ := List.mem_map.mp ((addrs_perm t).subset ((isNode_iff hh).mp hn))
  exact ⟨e, he, (data_of_mem hh.zip.tree he).2⟩

lemma OrdSet.noNull (hg : OrdSet kf h sz st s t) : NoNull st s.mem := by
  intro nd hn
  obtain ⟨e, he, hd⟩ := data_node hg.tree.holds hn
  rw [dataPtr, hd]
  exact hg.nonnull e he

/-! ### The insertion of a node -/

/-- The set has a datum with the key that `v` has once it is in the node at `nd`. -/
def Present (kf : Mem → ℕ → List ℕ) (s s₂ : HSt) (t : T) (nd v : ℕ) : Prop :=
  ∃ e ∈ t.toList, kf s.mem e.2 = kf (writeNode s₂.mem nd 3 0 0 v) v

/-- Without a node nothing is inserted. -/
lemma avlInsert_noRoom {tr v : ℕ} (hr : s.alloc h 4 = some (s, 0)) :
    avlInsert cmp h s tr v = some (s, 1) := by
  rw [avlInsert, hr, Option.bind_some]
  exact if_pos rfl

/-- **`avl_insert`** refuses data that are present, and leaves the heap as it was if it can give
the node back; other data get a node. -/
lemma avlInsert_spec {s₂ : HSt} {nd v : ℕ} (hcmp : Compares cmp kf) (hg : OrdSet kf h sz st s t)
    (hr : s.alloc h 4 = some (s₂, nd)) (h0 : nd ≠ 0) :
    (Present kf s s₂ t nd v ∧ ∃ s', avlInsert cmp h s (contents st 0) v = some (s', 1) ∧
      Sound h sz s' ∧ s'.live.Perm s.live ∧ Ext (fun _ _ => False) s s' ∧
      (Restored h s s' ↔ nd < freeBound h sz)) ∨
    ¬ Present kf s s₂ t nd v ∧ ∃ s' t', avlInsert cmp h s (contents st 0) v = some (s', 0) ∧
      Holds s'.mem (contents st 0) t' ∧
      ∀ d, d ∈ t'.toList.map Prod.snd ↔ d = v ∨ d ∈ t.toList.map Prod.snd := by
  obtain ⟨hs₂, hx₂, hlive, hsz⟩ := alloc_ext hg.tree.sound (by decide) hr h0
  have hnd : nd ∈ s₂.live := by simp [hlive]
  have hfresh : nd ∉ s.live := by
    have := hs₂.nodup
    rw [hlive] at this
    exact (List.nodup_cons.mp this).1
  have hne : nd ∉ addrs t := fun hmem => hfresh (hg.tree.nodes nd hmem).1
  have hst : nd ≠ st + 1 := fun heq => hfresh (heq ▸ hg.tree.set.1)
  have ht₂ : TreeAt h sz st s₂ t := hg.tree.ext hs₂ hx₂ id fun _ _ _ _ => id
  have hsep := ht₂.sep hnd hsz hne hst
  have hw := wrote_node v hs₂ hnd hsz
  -- the node is written, and the search begins
  have hx : Ext (fun _ _ => False) s ⟨writeNode s₂.mem nd 3 0 0 v, s₂.live⟩ := by
    intro a ha i hi _
    refine (hx₂.trans hw.ext) a ha i hi ?_
    rintro (hf | rfl)
    · exact hf
    · exact hfresh ha
  have hkey : ∀ e ∈ t.toList, kf (writeNode s₂.mem nd 3 0 0 v) e.2 = kf s.mem e.2 := fun e he =>
    hg.keyed e he _ (hx.mono fun _ _ => False.elim)
  have hcmp' : ∀ e ∈ t.toList, cmp (writeNode s₂.mem nd 3 0 0 v) e.1 nd =
      threeWay (rank (kf s.mem e.2)) (rank (kf (writeNode s₂.mem nd 3 0 0 v) v)) := by
    intro e he
    have hh := ht₂.holds.writeNode hsep 3 0 0 v
    have hdata : data (writeNode s₂.mem nd 3 0 0 v) nd = v := by simp [data, writeNode_apply]
    rw [hcmp, (data_of_mem hh.zip.tree he).2, hdata, hkey e he]
  have hcode : ∀ m ret, avlInsertNode cmp s₂.mem (contents st 0) nd v = some (m, ret) →
      avlInsert cmp h s (contents st 0) v =
        (if ret ≠ 0 then HSt.free ⟨m, s₂.live⟩ h nd else some ⟨m, s₂.live⟩).map fun s =>
          (s, ret) := by
    intro m ret h1
    rw [avlInsert, hr, Option.bind_some]
    dsimp only
    rw [if_neg h0, h1, Option.bind_some]
  rcases avlInsertNode_spec ht₂.holds h0 hsep hcmp' (falling_threeWay hg.sorted _) ht₂.fuel_lt with
    ⟨⟨e, he, he0⟩, h1⟩ | ⟨m', t', L₁, L₂, h1, h2, h3, h4, h5, h6, -⟩
  · -- the node is given back
    rw [threeWay_eq_zero, rank_inj] at he0
    obtain ⟨s', h2, h3, h4, h5⟩ := free_ext hw.sound (a := nd) hnd
    have hlive' : s'.live.Perm s.live := by rw [h5, hlive, List.erase_cons_head]
    have hx' : Ext (fun _ _ => False) s s' := by
      intro a ha i hi _
      refine (hx.trans h4) a ha i hi ?_
      rintro (hf | rfl)
      · exact hf
      · exact hfresh ha
    obtain ⟨U, hU⟩ := Owns.of_sound hg.tree.sound
    have htook := (((Took.refl hU).alloc (by decide) hr h0).wrote hw).free List.mem_cons_self hnd h2
    refine .inl ⟨⟨e, he, he0⟩, s', ?_, h3, hlive', hx', (htook.restored_iff hU hlive' hx').trans ?_⟩
    · rw [hcode _ _ h1]
      simp only [ne_eq, one_ne_zero, not_false_eq_true, if_true]
      rw [h2, Option.map_some]
    · rw [freed, List.erase_cons_head]
      exact ite_eq_left_iff.trans ⟨fun hf => by_contra fun hn => absurd (hf hn) (by simp),
        fun hlt hn => absurd hlt hn⟩
  · refine .inr ⟨?_, ⟨m', s₂.live⟩, t', ?_, h2, fun d => ?_⟩
    · rintro ⟨e, he, heq⟩
      have h7 : threeWay (rank (kf s.mem e.2)) (rank (kf (writeNode s₂.mem nd 3 0 0 v) v)) = 0 :=
        threeWay_eq_zero.mpr (congrArg rank heq)
      rw [h3, List.mem_append] at he
      rcases he with he | he
      · have := h5 e he
        omega
      · have := h6 e he
        omega
    · rw [hcode _ _ h1]
      rfl
    · rw [h3, h4, List.map_append, List.map_cons, List.map_append, List.mem_append,
        List.mem_cons, List.mem_append]
      exact or_left_comm

/-! ### Adding a datum -/

/-- What a call that adds to the set should do: a refusal changes nothing, and no null datum gets
into the set. -/
def Refuses (h st : ℕ) (s : HSt) (r : Option (HSt × ℕ)) : Prop :=
  ∃ s' v, r = some (s', v) ∧ (v ≠ 0 → Restored h s s') ∧ NoNull st s'.mem

/-- The null pointer has what the words at the addresses of a null pair or object say for its key.
The set has a datum with that key and the node can be given back, or there is no node to insert the
null pointer in. -/
def NullFound (kf : Mem → ℕ → List ℕ) (h sz : ℕ) (s : HSt) (t : T) : Prop :=
  ∀ s₂ nd, s.alloc h 4 = some (s₂, nd) → nd ≠ 0 →
    Present kf s s₂ t nd 0 ∧ nd < freeBound h sz

lemma four_lt : 4 + umdsSz < wordMod := by decide

/-- **A null datum** is refused only if it is found. -/
lemma setAdd_null_iff (hcmp : Compares cmp kf) (hg : OrdSet kf h sz st s t) :
    Refuses h st s (setAdd cmp h s st 0) ↔ NullFound kf h sz s t := by
  have hcode : setAdd cmp h s st 0 = avlInsert cmp h s (contents st 0) 0 := rfl
  rw [hcode]
  rcases alloc_cases hg.tree.sound four_lt with ⟨-, hr⟩ | ⟨-, s₂, nd, hr, h0⟩
  · refine iff_of_true ⟨s, 1, avlInsert_noRoom hr, fun _ => .refl h s, hg.noNull⟩
      fun s₃ nd hr' h0 => ?_
    exact absurd (Prod.mk.inj (Option.some.inj (hr.symm.trans hr'))).2.symm h0
  · have hfound : NullFound kf h sz s t ↔ Present kf s s₂ t nd 0 ∧ nd < freeBound h sz := by
      refine ⟨fun hf => hf s₂ nd hr h0, fun hp s₃ nd' hr' _ => ?_⟩
      obtain ⟨rfl, rfl⟩ := Prod.mk.inj (Option.some.inj (hr.symm.trans hr'))
      exact hp
    rw [hfound]
    rcases avlInsert_spec (v := 0) hcmp hg hr h0 with
      ⟨h1, s', h2, h3, -, h4, h5⟩ | ⟨h1, s', t', h2, h3, h4⟩
    · have hg' := hg.ext h3 h4 fun _ _ => False.elim
      rw [and_iff_right h1, ← h5]
      constructor
      · rintro ⟨s₃, v, h6, h7, -⟩
        obtain ⟨rfl, rfl⟩ := Prod.mk.inj (Option.some.inj (h2.symm.trans h6))
        exact h7 one_ne_zero
      · exact fun hr => ⟨s', 1, h2, fun _ => hr, hg'.noNull⟩
    · -- there is a node with the null pointer now
      refine iff_of_false ?_ fun hc => h1 hc.1
      rintro ⟨s₃, v, h5, -, h6⟩
      obtain ⟨rfl, -⟩ := Prod.mk.inj (Option.some.inj (h2.symm.trans h5))
      obtain ⟨e, he, he0⟩ := List.mem_map.mp ((h4 0).mpr (.inl rfl))
      refine h6 e.1 ((isNode_iff h3).mpr ((addrs_perm t').symm.subset (List.mem_map_of_mem he))) ?_
      rw [dataPtr, (data_of_mem h3.zip.tree he).2, he0]

/-- **`set_add`** has counted a reference when it refuses a datum. -/
lemma setAdd_spec {dt : ℕ} (hcmp : Compares cmp kf) (hg : OrdSet kf h sz st s t) (hd0 : dt ≠ 0)
    (hd : Val s st dt) (hk : Keyed kf s (8 * dt)) :
    ((¬ NoRoom h sz s 4 ∧ ∀ e ∈ t.toList, kf s.mem e.2 ≠ kf s.mem (8 * dt)) ∧
      ∃ s', setAdd cmp h s st dt = some (s', 0) ∧ NoNull st s'.mem) ∨
    ¬ (¬ NoRoom h sz s 4 ∧ ∀ e ∈ t.toList, kf s.mem e.2 ≠ kf s.mem (8 * dt)) ∧
      ∃ s', setAdd cmp h s st dt = some (s', 1) ∧ s'.live.Perm s.live ∧
        s'.mem (refcount dt) = wadd (s.mem (refcount dt)) 1 := by
  have hs := hg.tree.sound
  have hmin := (hs.bounds hd.live).2.2.1
  have hnode : dt + 1 ∉ addrs t := mt (isNode_iff hg.tree.holds).mpr hd.not_node
  have hw : Wrote h sz (fun a i => a = dt + 1 ∧ i = 0) s (incRefcount s dt 1) :=
    (Wrote.refl hs).incRefcount 1 hd.live ⟨rfl, rfl⟩
  have hcounts : Counts t fun a i => a = dt + 1 ∧ i = 0 := fun a i hw => ⟨hw.2, hw.1 ▸ hnode⟩
  have hg₁ := hg.ext hw.sound hw.ext hcounts
  have hkeys : ∀ e ∈ t.toList, kf (incRefcount s dt 1).mem e.2 = kf s.mem e.2 := fun e he =>
    ((hg.keyed e he).ext hw.ext fun a i hw => hw.2).2
  have hkey := hk.ext hw.ext fun a i hw => hw.2
  have hcode : setAdd cmp h s st dt =
      avlInsert cmp h (incRefcount s dt 1) (contents st 0) (8 * dt) := by
    rw [setAdd, if_pos hd0]
  have hcount : (incRefcount s dt 1).mem (refcount dt) = wadd (s.mem (refcount dt)) 1 := set_self ..
  have hroom : NoRoom h sz (incRefcount s dt 1) 4 ↔ NoRoom h sz s 4 :=
    noRoom_set (i := 0) hs hd.live (by omega)
  rw [hcode, ← hroom]
  rcases alloc_cases hw.sound four_lt with ⟨hf, hr⟩ | ⟨hf, s₂, nd, hr, h0⟩
  · exact .inr ⟨fun hc => hc.1 hf, _, avlInsert_noRoom hr, hw.live ▸ .refl _, hcount⟩
  · obtain ⟨hs₂, hx₂, hlive, hsz⟩ := alloc_ext hw.sound (by decide) hr h0
    have hw₂ := wrote_node (8 * dt) hs₂ (show nd ∈ s₂.live by simp [hlive]) hsz
    have hfresh : nd ∉ (incRefcount s dt 1).live := by
      have := hs₂.nodup
      rw [hlive] at this
      exact (List.nodup_cons.mp this).1
    have hsame : kf (writeNode s₂.mem nd 3 0 0 (8 * dt)) (8 * dt) = kf s.mem (8 * dt) := by
      refine (hkey.1 ⟨_, s₂.live⟩ fun a ha i hi _ => ?_).trans hkey.2
      refine (hx₂.trans hw₂.ext) a ha i hi ?_
      rintro (hf' | rfl)
      · exact hf'
      · exact hfresh ha
    have hpresent : Present kf (incRefcount s dt 1) s₂ t nd (8 * dt) ↔
        ∃ e ∈ t.toList, kf s.mem e.2 = kf s.mem (8 * dt) := by
      refine exists_congr fun e => and_congr_right fun he => ?_
      rw [hkeys e he, hsame]
    rcases avlInsert_spec (v := 8 * dt) hcmp hg₁ hr h0 with
      ⟨h1, s', h2, -, h4, h5, -⟩ | ⟨h1, s', t', h2, h3, h4⟩
    · obtain ⟨e, he, heq⟩ := hpresent.mp h1
      refine .inr ⟨fun hc => hc.2 e he heq, s', h2, h4.trans (hw.live ▸ .refl _), ?_⟩
      have hkeep := h5 _ (hw.live ▸ hd.live) 0 (by rw [hw.memSz _ hd.live]; omega) id
      exact hkeep.word.trans hcount
    · refine .inl ⟨⟨hf, fun e he heq => h1 (hpresent.mpr ⟨e, he, heq⟩)⟩, s', h2, fun nd' hn => ?_⟩
      obtain ⟨e, he, hd'⟩ := data_node h3 hn
      rw [dataPtr, hd']
      rcases (h4 e.2).mp (List.mem_map_of_mem he) with heq | hold
      · omega
      · obtain ⟨e', he', heq⟩ := List.mem_map.mp hold
        exact heq ▸ hg.nonnull e' he'

lemma setAdd_iff {dt : ℕ} (hcmp : Compares cmp kf) (hg : OrdSet kf h sz st s t) (hd0 : dt ≠ 0)
    (hd : Val s st dt) (hk : Keyed kf s (8 * dt)) :
    Refuses h st s (setAdd cmp h s st dt) ↔
      ¬ NoRoom h sz s 4 ∧ ∀ e ∈ t.toList, kf s.mem e.2 ≠ kf s.mem (8 * dt) := by
  have hmin := (hg.tree.sound.bounds hd.live).2.2.1
  rcases setAdd_spec hcmp hg hd0 hd hk with ⟨h1, s', h2, h3⟩ | ⟨h1, s', h2, -, h3⟩
  · exact iff_of_true ⟨s', 0, h2, fun h0 => absurd rfl h0, h3⟩ h1
  · refine iff_of_false ?_ h1
    rintro ⟨s₂, v, h4, h5, -⟩
    obtain ⟨rfl, rfl⟩ := Prod.mk.inj (Option.some.inj (h2.symm.trans h4))
    have h6 := ((h5 one_ne_zero).words _ hd.live 0 (by omega) id).word
    have h7 : wadd (s.mem (refcount dt)) 1 = s.mem (refcount dt) := h3.symm.trans h6
    unfold wadd wordMod at h7
    omega

/-! ### Adding a binding -/

/-- There is a block for a pair, or none. -/
lemma pair_cases (ty : ℕ) {key val : ℕ} (hs : Sound h sz s) (hk : key + 1 ∈ s.live)
    (hv : val + 1 ∈ s.live) :
    (NoRoom h sz s 5 ∧ pair h ty s key val = some (s, 0)) ∨
      ¬ NoRoom h sz s 5 ∧ ∃ s₁ p, pair h ty s key val = some (s₁, p) ∧ p ≠ 0 := by
  have hkey := hs.bounds hk
  have hval := hs.bounds hv
  have hreq : wsub (wadd 2 objSz) 1 = 5 := by decide
  have hfit : 5 + umdsSz < wordMod := by decide
  rw [pair, object, if_neg (by omega), hreq]
  rcases alloc_cases hs hfit with ⟨hf, hr⟩ | ⟨hf, s₁, a, hr, h0⟩
  · refine .inl ⟨hf, ?_⟩
    rw [hr, Option.map_some, Option.bind_some]
    rfl
  · obtain ⟨hs₁, -, hlive, -⟩ := alloc_ext hs hfit hr h0
    have hb := hs₁.bounds (a := a) (by simp [hlive])
    refine .inr ⟨hf, ?_⟩
    rw [hr, Option.map_some, Option.bind_some]
    dsimp only
    rw [if_neg h0, if_neg (by omega), if_neg (by omega)]
    exact ⟨_, _, rfl, by omega⟩

/-- **`set_add_str_key`** keeps what it has done when it refuses a binding. -/
lemma setAddStrKey_iff {S : SetsInv.St} {ty key val : ℕ} (hg : Good h sz st S t)
    (hty : Val S.heap st ty) (hk : Key S.heap st key) (hv : Val S.heap st val) :
    Refuses h st S.heap (setAddStrKey h ty S.heap st key val) ↔
      (Allocates h ty S.heap key val ∧ S.map (text S.heap.mem key) = none) ∨
        NoRoom h sz S.heap 5 ∧ NullFound pairKey h sz S.heap t := by
  have hord := ordSet_of_good hg
  have hnode {nd : ℕ} : IsNode S.heap.mem (contents st 0) nd ↔ nd ∈ addrs t := isNode_iff hg.holds
  rcases pair_cases ty hg.sound hk.obj.live hv.live with ⟨hf, hp⟩ | ⟨hf, s₁, p, hp, hp0⟩
  · -- the null pointer is inserted for the pair
    have hno : ¬ Allocates h ty S.heap key val := by
      rintro ⟨s₁, p, -, -, h1, h2, -⟩
      exact h2 (Prod.mk.inj (Option.some.inj (h1.symm.trans hp))).2
    have hcode : setAddStrKey h ty S.heap st key val = setAdd setKeycmp h S.heap st 0 := by
      rw [setAddStrKey, hp, Option.bind_some]
    rw [hcode, setAdd_null_iff setKeycmp_compares hord, or_iff_right fun hc => hno hc.1,
      and_iff_right hf]
  · obtain ⟨hs₁, hx₁, hlive₁, hsz₁, hkey₁, -, -⟩ :=
      pair_ext hg.sound hty.live hk.obj.live hv.live hp hp0
    have hfresh : p + 1 ∉ S.heap.live := by
      have := hs₁.nodup
      rw [hlive₁] at this
      exact (List.nodup_cons.mp this).1
    have hcounts : Counts t fun a i => i = 0 ∧ (a = ty + 1 ∨ a = key + 1 ∨ a = val + 1) := by
      rintro a i ⟨hi, rfl | rfl | rfl⟩
      · exact ⟨hi, mt hnode.mpr hty.not_node⟩
      · exact ⟨hi, mt hnode.mpr hk.not_node⟩
      · exact ⟨hi, mt hnode.mpr hv.not_node⟩
    have hg₁ := hord.ext hs₁ hx₁ hcounts
    have hp₁ : p + 1 ∈ s₁.live := by simp [hlive₁]
    have hval : Val s₁ st p :=
      ⟨hp₁, fun hn => hfresh (hg.nodes _ ((isNode_iff hg₁.tree.holds).mp hn)).1⟩
    have hobj := hk.obj.ext hx₁ fun i _ h0 => absurd h0.1 (by omega)
    have hdiv : 8 * p / 8 = p := by omega
    have hpair : IsPair s₁ st [] (8 * p) := by
      refine ⟨by rwa [hdiv], by rwa [hdiv], ?_, List.not_mem_nil, ?_, ?_, List.not_mem_nil⟩
      · rw [hdiv]
        rintro rfl
        exact hfresh hg.set.1
      · rw [hkey₁]
        exact hobj.1
      · rw [hkey₁]
        exact hk.ne_set
    have hkeyed : Keyed pairKey s₁ (8 * p) := fun s' hx => congrArg Prod.fst
      (hpair.ext (M := []) hx (fun i _ h0 => absurd h0 (by omega))
        (fun i _ h0 => absurd h0 (by omega)) fun _ hx => .inl hx).2.1
    have hcode : setAddStrKey h ty S.heap st key val = setAdd setKeycmp h s₁ st p := by
      rw [setAddStrKey, hp, Option.bind_some]
    have hmin := (hs₁.bounds hp₁).2.2.1
    -- the conditions, once there is a pair
    have hall : Allocates h ty S.heap key val ↔ ¬ NoRoom h sz s₁ 4 := by
      have hw : Wrote h sz (fun _ _ => True) s₁ (incRefcount s₁ p 1) :=
        (Wrote.refl hs₁).incRefcount 1 hp₁ trivial
      have hroom : NoRoom h sz (incRefcount s₁ p 1) 4 ↔ NoRoom h sz s₁ 4 :=
        noRoom_set (i := 0) hs₁ hp₁ (by omega)
      rw [← hroom]
      constructor
      · rintro ⟨s₁', p', s₂, nd, h1, -, h2, h3⟩ hfull
        obtain ⟨rfl, rfl⟩ := Prod.mk.inj (Option.some.inj (hp.symm.trans h1))
        have h4 := (alloc_noRoom hw.sound four_lt).mp hfull
        exact h3 (Prod.mk.inj (Option.some.inj (h2.symm.trans h4))).2
      · intro hfree
        rcases alloc_cases hw.sound four_lt with ⟨h1, -⟩ | ⟨-, s₂, nd, h1, h2⟩
        · exact absurd h1 hfree
        · exact ⟨s₁, p, s₂, nd, hp, hp0, h1, h2⟩
    have habsent : S.map (text S.heap.mem key) = none ↔
        ∀ e ∈ t.toList, pairKey s₁.mem e.2 ≠ pairKey s₁.mem (8 * p) := by
      rw [hg.map_eq_none]
      refine forall₂_congr fun e he => not_congr ?_
      have h1 : pairKey s₁.mem e.2 = pairKey S.heap.mem e.2 :=
        ((hord.keyed e he).ext hx₁ fun a i hw => (hcounts a i hw).1).2
      have h2 : pairKey s₁.mem (8 * p) = text S.heap.mem key := by
        rw [pairKey, hkey₁]
        exact hobj.2
      rw [Good.against, threeWay_eq_zero, rank_inj, h1, h2]
      rfl
    rw [hcode, hall, habsent, or_iff_left fun hc => hf hc.1]
    rcases setAdd_spec setKeycmp_compares hg₁ hp0 hval hkeyed with
      ⟨h1, s', h2, h3⟩ | ⟨h1, s', h2, h3, -⟩
    · exact iff_of_true ⟨s', 0, h2, fun h0 => absurd rfl h0, h3⟩ h1
    · -- the pair stays allocated
      refine iff_of_false ?_ h1
      rintro ⟨s₂, v, h4, h5, -⟩
      obtain ⟨rfl, rfl⟩ := Prod.mk.inj (Option.some.inj (h2.symm.trans h4))
      have h6 := (h3.symm.trans (h5 one_ne_zero).live).length_eq
      rw [hlive₁, List.length_cons] at h6
      omega

/-- **Refused insertions** change nothing, and null data are refused, exactly if nothing is refused
after a reference has been counted, and a null pointer is refused by its key or for want of a
node. -/
theorem set_add_refused_iff (h sz st : ℕ) :
    (∀ cmp kf s t, Compares cmp kf → OrdSet kf h sz st s t →
      (Refuses h st s (setAdd cmp h s st 0) ↔ NullFound kf h sz s t) ∧
      ∀ dt, dt ≠ 0 → Val s st dt → Keyed kf s (8 * dt) →
        (Refuses h st s (setAdd cmp h s st dt) ↔
          ¬ NoRoom h sz s 4 ∧ ∀ e ∈ t.toList, kf s.mem e.2 ≠ kf s.mem (8 * dt))) ∧
    ∀ S t ty key val, Good h sz st S t → Val S.heap st ty → Key S.heap st key →
      Val S.heap st val →
      (Refuses h st S.heap (setAddStrKey h ty S.heap st key val) ↔
        (Allocates h ty S.heap key val ∧ S.map (text S.heap.mem key) = none) ∨
          NoRoom h sz S.heap 5 ∧ NullFound pairKey h sz S.heap t) :=
  ⟨fun _ _ _ _ hcmp hg =>
      ⟨setAdd_null_iff hcmp hg, fun _ hd0 hd hk => setAdd_iff hcmp hg hd0 hd hk⟩,
    fun _ _ _ _ _ hg hty hk hv => setAddStrKey_iff hg hty hk hv⟩

/-- An empty set, and an object that is not in it. -/
lemma exists_empty : ∃ s st dt, OrdSet selfKey 1 (2 ^ 17) st s .nil ∧ dt ≠ 0 ∧ Val s st dt ∧
    IsObj s dt ∧ ¬ NoRoom 1 (2 ^ 17) s 4 := by
  obtain ⟨s, ty, st, dt, hs, -, -, -, h1, h2, hno⟩ :=
    exists_numbers [0] [5] (by decide) (by decide)
  have hroot : s.mem (contents st 0) = 0 := (List.cons.inj h1.words).1
  have hset : st + 1 ∈ s.live ∧ 4 ≤ getMemSz s.mem (st + 1) := ⟨h1.live, h1.fits⟩
  have htree : TreeAt 1 (2 ^ 17) st s .nil :=
    ⟨hs, hset, ⟨⟨trivial, hroot, sep_nil _⟩, trivial⟩, by simp, by simp⟩
  have hb := hs.bounds h2.live
  refine ⟨s, st, dt, ⟨htree, by simp, .nil, by simp⟩, by omega, ⟨h2.live, not_isNode ?_⟩,
    ⟨h2.live, ?_⟩, hno _ (by decide)⟩
  · exact Nat.div_eq_of_lt (by rw [hroot]; omega)
  · rw [h2.size]
    exact h2.fits

/-- The words before the heap stay when a block is handed out and a node written in it. -/
lemma node_keeps_low {x nd v : ℕ} (hs : Sound h sz s) (hr : s.alloc h 4 = some (s', nd))
    (h0 : nd ≠ 0) (hx : x < h) : writeNode s'.mem nd 3 0 0 v x = s.mem x := by
  obtain ⟨U, hU⟩ := Owns.of_sound hs
  obtain ⟨_, _, -, ho⟩ := hU.alloc (by decide) hr h0
  obtain ⟨hs', -, hlive, -⟩ := alloc_ext hs (by decide) hr h0
  have hb := hs'.bounds (a := nd) (by simp [hlive])
  have hkeep : s'.mem x = s.mem x := by
    refine ho.header x (by omega) fun hc => ?_
    simp only [headerCells, List.mem_cons, List.not_mem_nil, or_false] at hc
    unfold fmdsPtr trueNumAlloced wordsUsed at hc
    omega
  rw [writeNode_apply, hkeep]
  split_ifs <;> omega

/-- The pair that the null pointer looks like, where the memory begins with zeros. -/
lemma pairKey_null {m : Mem} (h3 : m 3 = 0) (h4 : m 4 = 0) : pairKey m 0 = [] := by
  have hkey : keyOf m 0 = 0 :=
    Nat.div_eq_of_lt (by rw [show contents (0 / 8) 0 = 4 from rfl, h4]; omega)
  rw [pairKey, hkey, text, show size 0 = 3 from rfl, h3]
  rfl

/-- A set with a binding for the empty text, in a heap before which there are zeros. -/
lemma exists_null_found : ∃ s st t, OrdSet pairKey 100 (2 ^ 17) st s t ∧ t ≠ .nil ∧
    ∀ s₂ nd, s.alloc 100 4 = some (s₂, nd) → nd ≠ 0 → Present pairKey s s₂ t nd 0 := by
  have hloc : (2 ^ 18 : ℕ) + 4 ≤ 100 ∨ 100 + 2 ^ 17 ≤ 2 ^ 18 := by decide
  obtain ⟨s, st, ty, key, val, hS, hty, hk, hv, ha, hkey⟩ :=
    @exists_set 100 (2 ^ 18) (by decide) (by decide)
  obtain ⟨t₀, hg₀⟩ := (good_invariant hloc).reachable hS
  obtain ⟨s₁, hr⟩ := add_returns hg₀ hty hk hv ha
  obtain ⟨t, hg⟩ := (good_invariant hloc).reachable (hS.step (.add hty hk hv ha hr))
  obtain ⟨lost, t₁, U, hi⟩ := hg.sound
  -- the words before the heap that the null pointer stands for
  have hi' := (hi.other (x := 3) 0 (.inl (by decide))).other (x := 4) 0 (.inl (by decide))
  have hx : Ext (fun _ _ => False) s₁ ((s₁.set 3 0).set 4 0) := by
    refine ext_outside hg.sound fun x hx _ => ?_
    exact (set_ne _ _ (by omega)).trans (set_ne _ _ (by omega))
  have hg' := hg.ext ⟨lost, t₁, U, hi'⟩ hx fun _ _ _ => id
  have hmap : addBinding (fun _ => none) (text s.mem key) val [] = some val := by
    rw [addBinding, if_pos rfl, hkey, Function.update_self]
  obtain ⟨e, he, heq⟩ := List.mem_map.mp ((hg'.map.mem _ _).mp hmap)
  refine ⟨_, st, t, ordSet_of_good hg', ?_, fun s₂ nd h1 h2 => ⟨e, he, ?_⟩⟩
  · rintro rfl
    simp at he
  · have h3 : ((s₁.set 3 0).set 4 0).mem 3 = 0 := by
      rw [mem_set, if_neg (by decide), mem_set, if_pos rfl]
    have h4 : ((s₁.set 3 0).set 4 0).mem 4 = 0 := by rw [mem_set, if_pos rfl]
    exact (congrArg Prod.fst heq).trans (pairKey_null
      ((node_keeps_low hg'.sound h1 h2 (by decide)).trans h3)
      ((node_keeps_low hg'.sound h1 h2 (by decide)).trans h4)).symm

/-- A null pointer is refused, and nothing changes; an object is added to an empty set. -/
theorem set_add_refused_null :
    (∃ s st t s', OrdSet pairKey 100 (2 ^ 17) st s t ∧ t ≠ .nil ∧
      setAdd setKeycmp 100 s st 0 = some (s', 1) ∧ Restored 100 s s' ∧ NoNull st s'.mem) ∧
    ∃ s st dt, OrdSet selfKey 1 (2 ^ 17) st s .nil ∧ dt ≠ 0 ∧
      Refuses 1 st s (setAdd setCmp 1 s st dt) := by
  obtain ⟨s, st, t, hg, ht, hp⟩ := exists_null_found
  have hlow : ∀ s₂ nd, s.alloc 100 4 = some (s₂, nd) → nd = 0 ∨ nd < freeBound 100 (2 ^ 17) :=
    givesBack_low hg.tree.sound (by decide) (by decide)
  have hfound : NullFound pairKey 100 (2 ^ 17) s t := fun s₂ nd h1 h2 =>
    ⟨hp s₂ nd h1 h2, (hlow s₂ nd h1).resolve_left h2⟩
  obtain ⟨s', v, h1, h2, h3⟩ := ((set_add_refused_iff 100 (2 ^ 17) st).1 setKeycmp pairKey s t
    setKeycmp_compares hg).1.mpr hfound
  have hv : v = 1 := by
    rcases alloc_cases hg.tree.sound four_lt with ⟨-, hr⟩ | ⟨-, s₂, nd, hr, h0⟩
    · exact (Prod.mk.inj (Option.some.inj (h1.symm.trans (avlInsert_noRoom hr)))).2
    · rcases avlInsert_spec (v := 0) setKeycmp_compares hg hr h0 with
        ⟨-, s₃, h4, -⟩ | ⟨h4, -⟩
      · exact (Prod.mk.inj (Option.some.inj (h1.symm.trans h4))).2
      · exact absurd (hp s₂ nd hr h0) h4
  subst hv
  refine ⟨⟨s, st, t, s', hg, ht, h1, h2 one_ne_zero, h3⟩, ?_⟩
  obtain ⟨s, st, dt, hg, hd0, hd, hobj, hno⟩ := exists_empty
  have hkeyed : Keyed selfKey s (8 * dt) :=
    isObj_keyed (by rwa [Nat.mul_div_cancel_left _ (by decide)])
  exact ⟨s, st, dt, hg, hd0, (((set_add_refused_iff 1 (2 ^ 17) st).1 setCmp selfKey s .nil
    setCmp_compares hg).2 dt hd0 hd hkeyed).mpr ⟨hno, by simp⟩⟩

/-- The null pointer is added to an empty set. -/
theorem set_add_null_inserted : ¬ ∀ (h sz st : ℕ) (s : HSt) (t : T) (dt : ℕ),
    OrdSet selfKey h sz st s t → (dt = 0 ∨ Val s st dt ∧ Keyed selfKey s (8 * dt)) →
      Refuses h st s (setAdd setCmp h s st dt) := by
  intro hall
  obtain ⟨s, st, -, hg, -, -, -, hno⟩ := exists_empty
  have hfound := (setAdd_null_iff setCmp_compares hg).mp (hall _ _ st s _ 0 hg (.inl rfl))
  rcases alloc_cases hg.tree.sound four_lt with ⟨h1, -⟩ | ⟨-, s₂, nd, h1, h2⟩
  · exact hno h1
  · obtain ⟨⟨e, he, -⟩, -⟩ := hfound s₂ nd h1 h2
    simp at he

end LispMachine.SetRefused
