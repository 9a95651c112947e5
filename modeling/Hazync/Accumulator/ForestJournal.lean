import Mathlib.Data.List.Sort
import Mathlib.Algebra.Order.Group.Multiset
import Hazync.Accumulator.ForestCache

/-!
# The position index and the journal

For every leaf hash the two maps together hold the ascending list of its positions, the first in
`index` and the rest, when there is a rest, in `dups`. That form is canonical: it depends only on
which positions hold the leaf, not on the order they came and went in. So a run that brings the
leaves back brings both maps back, and inverting a journal newest first brings the leaves back.

## What is recorded, and what it is worth

The journal holds a position and a leaf for each delete, and no more than the fact for an add. That
is enough, since a delete is a swap-remove: the leaf that came into slot `pos` is still there when
the undo gets to it (`Recorded.step`). The levels and the maps are not recorded at all. They come
back because they are functions of the leaves: the levels by `IsCache`, the maps by the canonical
form, `Indexed.unique`.

Positions are compared as the `u32` that the maps hold, so nothing here needs a bound on the length
but `from_leaves`, whose index loop meets the positions in ascending order only while they fit.
-/

namespace Hazync
namespace Accumulator

open MerkleForest SwapRemove

variable {H : Type} {parent : H → H → H}

/-! ## Where a leaf stands -/

section Positions

variable [DecidableEq H]

/-- The position of one slot, if it holds `x`. -/
def spot (y x : H) (pos : ℕ) : Multiset ℕ := if y = x then {asU32 pos} else 0

/-- The positions of `x` in `L`, the first slot of which is number `n`. -/
def positions (n : ℕ) : List H → H → Multiset ℕ
  | [], _ => 0
  | y :: L, x => spot y x n + positions (n + 1) L x

theorem positions_append (L : List H) (y x : H) (n : ℕ) :
    positions n (L ++ [y]) x = positions n L x + spot y x (n + L.length) := by
  induction L generalizing n with
  | nil => simp [positions]
  | cons z L ih =>
    rw [List.cons_append, positions, positions, ih, List.length_cons,
      show n + 1 + L.length = n + (L.length + 1) by omega, add_assoc]

/-- Slot `i` contributes its own position and nothing else. -/
theorem exists_positions_set {L : List H} {i : ℕ} (hi : i < L.length) (n : ℕ) :
    ∃ R : H → Multiset ℕ, ∀ y x, positions n (L.set i y) x = R x + spot y x (n + i) := by
  induction L generalizing n i with
  | nil => simp at hi
  | cons z L ih =>
    cases i with
    | zero => exact ⟨positions (n + 1) L, fun y x => by simp [positions, add_comm]⟩
    | succ i =>
      obtain ⟨R, hR⟩ := ih (by simpa using hi : i < L.length) (n + 1)
      refine ⟨fun x => spot z x n + R x, fun y x => ?_⟩
      rw [List.set_cons_succ, positions, hR, show n + 1 + i = n + (i + 1) by omega, add_assoc]

end Positions

/-! ## The canonical form -/

/-- What `dups` holds beside the first position. -/
def restOf (v : List ℕ) : Option (List ℕ) := if v.tail = [] then none else some v.tail

/-- The maps hold, at every leaf `x`, exactly the positions `P x`, in canonical form. -/
def Forest.Indexed (F : Forest H) (P : H → Multiset ℕ) : Prop :=
  ∀ x, ∃ v : List ℕ, v.Pairwise (· ≤ ·) ∧ (v : Multiset ℕ) = P x ∧
    F.index x = v.head? ∧ F.dups x = restOf v

theorem insertAscending_eq (v : List ℕ) (pos : ℕ) :
    insertAscending v pos = v.orderedInsert (· ≤ ·) pos := by
  unfold insertAscending
  induction v with
  | nil => rfl
  | cons a v ih =>
    rw [List.orderedInsert_cons]
    by_cases h : pos ≤ a
    · rw [if_pos h, List.takeWhile_cons_of_neg (by simpa using h)]
      rfl
    · rw [if_neg h, List.takeWhile_cons_of_pos (by simpa using h), ← ih]
      rfl

theorem removeAscending_eq (v : List ℕ) (pos : ℕ) : removeAscending v pos = v.erase pos := by
  rw [removeAscending, List.erase_eq_eraseIdx]
  cases v.idxOf? pos <;> rfl

theorem getD_restOf (a : ℕ) (w : List ℕ) : (restOf (a :: w)).getD [] = w := by
  cases w <;> rfl

namespace Forest

variable {F : Forest H} {L : List H} {P Q : H → Multiset ℕ}

/-- Both maps are determined by what they hold. -/
theorem Indexed.unique {G : Forest H} (hF : F.Indexed P) (hG : G.Indexed P) :
    F.index = G.index ∧ F.dups = G.dups := by
  have h (x : H) : F.index x = G.index x ∧ F.dups x = G.dups x := by
    obtain ⟨v, hv, hvP, hvi, hvd⟩ := hF x
    obtain ⟨w, hw, hwP, hwi, hwd⟩ := hG x
    obtain rfl := (Multiset.coe_eq_coe.mp (hvP.trans hwP.symm)).eq_of_pairwise' hv hw
    exact ⟨hvi.trans hwi.symm, hvd.trans hwd.symm⟩
  exact ⟨funext fun x => (h x).1, funext fun x => (h x).2⟩

/-- Only the maps matter, and what they are said to hold. -/
theorem Indexed.of_maps {G : Forest H} (h : F.Indexed P) (hi : G.index = F.index)
    (hd : G.dups = F.dups) (hPQ : ∀ x, Q x = P x) : G.Indexed Q := by
  intro x
  rw [hi, hd, hPQ]
  exact h x

variable [DecidableEq H]

/-- Putting a position in: the first place is the least one, and the others stay sorted. The three
    branches of `index_insert` are a new leaf, a new first place, and one more place among the
    others. -/
theorem Indexed.insert (h : F.Indexed P) (y : H) (pos : ℕ) :
    (F.indexInsert y pos).Indexed fun x => P x + spot y x pos := by
  intro x
  obtain ⟨v, hv, hvP, hvi, hvd⟩ := h x
  unfold indexInsert spot
  dsimp only
  by_cases hx : y = x
  · subst hx
    rw [if_pos rfl, ← hvP, Multiset.add_comm, Multiset.singleton_add, Multiset.cons_coe]
    -- the index has the lowest place of a leaf, and the others are in the list of duplicates
    cases v with
    | nil =>
      rw [hvi]
      exact ⟨[asU32 pos], by simp, by simp, by simp [setIndex], hvd⟩
    | cons first w =>
      rw [List.head?_cons] at hvi
      rw [List.pairwise_cons] at hv
      rw [hvi]
      dsimp only
      rw [hvd, getD_restOf, insertAscending_eq, insertAscending_eq]
      by_cases hlt : asU32 pos < first
      · rw [if_pos hlt]
        have hins : w.orderedInsert (· ≤ ·) first = first :: w := by
          cases w with
          | nil => rfl
          | cons b w => exact List.orderedInsert_cons_of_le _ _ (hv.1 b (by simp))
        refine ⟨asU32 pos :: first :: w, ?_, rfl, by simp [setIndex, setDups],
          by simp [setDups, restOf, hins]⟩
        rw [List.pairwise_cons, List.pairwise_cons]
        refine ⟨fun b hb => ?_, hv⟩
        rcases List.mem_cons.mp hb with rfl | hb
        · exact hlt.le
        · exact hlt.le.trans (hv.1 b hb)
      · rw [if_neg hlt]
        have hperm := w.perm_orderedInsert (· ≤ ·) (asU32 pos)
        refine ⟨first :: w.orderedInsert (· ≤ ·) (asU32 pos), ?_, ?_, by simpa [setDups],
          ?_⟩
        · rw [List.pairwise_cons]
          refine ⟨fun b hb => ?_, hv.2.orderedInsert _ _⟩
          rcases (List.mem_orderedInsert _).mp hb with rfl | hb
          · exact Nat.le_of_not_lt hlt
          · exact hv.1 b hb
        · exact Multiset.coe_eq_coe.mpr ((hperm.cons first).trans (List.Perm.swap _ _ _))
        · have hne : w.orderedInsert (· ≤ ·) (asU32 pos) ≠ [] := by
            intro hnil
            have := List.orderedInsert_length (· ≤ ·) w (asU32 pos)
            rw [hnil] at this
            simp at this
          simp [setDups, restOf, hne]
  -- the places of other leaves are not touched
  · refine ⟨v, hv, by rw [if_neg hx, add_zero]; exact hvP, ?_, ?_⟩
    · rw [← hvi]
      split
      · simp [setIndex, Function.update_of_ne (Ne.symm hx)]
      · split <;> simp [setIndex, setDups, Function.update_of_ne (Ne.symm hx)]
    · rw [← hvd]
      split
      · simp [setIndex]
      · split <;> simp [setIndex, setDups, Function.update_of_ne (Ne.symm hx)]

/-- Taking one out: where the first place goes, the next one takes its place, and `dups` has no
    entry for a leaf that has no other place left. -/
theorem Indexed.remove (h : F.Indexed P) (y : H) (pos : ℕ)
    (hP : ∀ x, P x = Q x + spot y x pos) : (F.indexRemove y pos).Indexed Q := by
  intro x
  obtain ⟨v, hv, hvP, hvi, hvd⟩ := h x
  have hPx := hP x
  unfold indexRemove
  unfold spot at hPx
  dsimp only
  by_cases hx : y = x
  · subst hx
    have hQ : Q y = ↑(v.erase (asU32 pos)) := by
      rw [← Multiset.coe_erase, hvP, hPx, if_pos rfl, add_comm, Multiset.singleton_add,
        Multiset.erase_cons_head]
    rw [hQ]
    cases v with
    | nil =>
      rw [hvi]
      exact ⟨[], by simp, by simp, hvi, hvd⟩
    | cons first w =>
      rw [List.head?_cons] at hvi
      rw [hvi, hvd]
      dsimp only
      have hv' := hv
      rw [List.pairwise_cons] at hv
      -- the lowest place goes, and the next one moves up from the duplicates; or it is one of these
      -- that goes
      by_cases heq : first = asU32 pos
      · rw [if_pos heq, ← heq, List.erase_cons_head]
        cases w with
        | nil => exact ⟨[], by simp, rfl, by simp [restOf, setIndex, setDups], by
            simp [restOf, setIndex, setDups]⟩
        | cons next w =>
          refine ⟨next :: w, hv.2, rfl, ?_, ?_⟩
          · simp [restOf, setIndex]
          · cases w <;> simp [restOf, setIndex, setDups]
      · rw [if_neg heq, List.erase_cons_tail (by simpa using heq)]
        have hsub : (first :: w.erase (asU32 pos)).Pairwise (· ≤ ·) :=
          hv'.sublist (List.Sublist.cons_cons _ List.erase_sublist)
        cases w with
        | nil => exact ⟨[first], by simp, by simp, hvi, by simpa [restOf] using hvd⟩
        | cons next w =>
          refine ⟨first :: (next :: w).erase (asU32 pos), hsub, rfl, ?_, ?_⟩
          · simp only [restOf, List.tail_cons, reduceCtorEq, if_false]
            split <;> simpa [setDups] using hvi
          · simp only [restOf, List.tail_cons, reduceCtorEq, if_false, removeAscending_eq]
            cases hrest : (next :: w).erase (asU32 pos) <;> simp [setDups]
  · rw [if_neg hx, add_zero] at hPx
    refine ⟨v, hv, hvP.trans hPx, ?_, ?_⟩
    · rw [← hvi]
      repeat' split
      all_goals simp [setIndex, setDups, Function.update_of_ne (Ne.symm hx)]
    · rw [← hvd]
      repeat' split
      all_goals simp [setIndex, setDups, Function.update_of_ne (Ne.symm hx)]

/-! ## The operations -/

/-- The maps hold the positions the leaves have. -/
def IndexKept (F : Forest H) : Prop := F.Indexed (positions 0 F.leaves)

theorem IndexKept.new : (new : Forest H).IndexKept :=
  fun _ => ⟨[], List.Pairwise.nil, rfl, rfl, rfl⟩

theorem positions_concat (L : List H) (y x : H) :
    positions 0 (L ++ [y]) x = positions 0 L x + spot y x L.length := by
  rw [positions_append, zero_add]

theorem IndexKept.add (h : F.IndexKept) (x : H) : (F.add parent x).IndexKept := by
  have hins := Indexed.insert (F := F.record .added) h x F.leaves.length
  refine hins.of_maps rfl rfl fun z => ?_
  rw [show (F.add parent x).leaves = F.leaves ++ [x] by simp [Forest.add, record],
    positions_concat]

/-- The last leaf goes, and with it the last position. -/
theorem IndexKept.undoAdd (h : F.IndexKept) : (F.undoAdd).2.IndexKept := by
  unfold Forest.undoAdd
  cases hlast : F.leaves.getLast? with
  | none => exact h
  | some leaf =>
    obtain ⟨M, hM⟩ := List.getLast?_eq_some_iff.mp hlast
    have hF : Indexed { F with leaves := F.leaves.dropLast } (positions 0 F.leaves) := h
    have hrem := hF.remove (Q := positions 0 M) leaf (F.leaves.length - 1) fun x => by
      rw [hM, positions_concat]
      simp
    refine hrem.of_maps rfl rfl fun x => ?_
    dsimp only
    rw [indexRemove_leaves]
    simp [hM]

/-- Moving the last leaf into slot `i`, in the order `delete` updates the maps. -/
theorem Indexed.move {M : List H} {i : ℕ} {gone moved : H} (hgone : M[i]? = some gone)
    (h : F.Indexed (positions 0 (M ++ [moved]))) :
    (((F.indexRemove gone i).indexRemove moved M.length).indexInsert moved i).Indexed
      (positions 0 (M.set i moved)) := by
  obtain ⟨hi, rfl⟩ := List.getElem?_eq_some_iff.mp hgone
  obtain ⟨R, hR⟩ := exists_positions_set hi 0
  have hM (x : H) : positions 0 M x = R x + spot M[i] x i := by
    have := hR M[i] x
    rwa [List.set_getElem_self, zero_add] at this
  have h1 := h.remove (Q := fun x => R x + spot moved x M.length) M[i] i fun x => by
    rw [positions_concat, hM, add_right_comm]
  have h2 := h1.remove (Q := R) moved M.length fun x => rfl
  refine (h2.insert moved i).of_maps rfl rfl fun x => ?_
  rw [hR, zero_add]

/-- A delete takes one place off the leaf that goes and moves one of the last leaf; where both are
    the same slot there is nothing to move. -/
theorem IndexKept.delete {G : Forest H} {i : ℕ} (h : F.IndexKept)
    (hd : F.delete parent i = some G) : G.IndexKept := by
  unfold Forest.delete at hd
  cases hgone : F.leaves[i]? with
  | none => simp [hgone] at hd
  | some gone =>
    obtain ⟨moved, hmoved, -⟩ := getLast?_of_lt (List.getElem?_eq_some_iff.mp hgone).1
    obtain ⟨M, hM⟩ := List.getLast?_eq_some_iff.mp hmoved
    have hlen : F.leaves.length - 1 = M.length := by simp [hM]
    have hdrop : F.leaves.dropLast = M := by simp [hM]
    simp only [hgone, Option.bind_eq_bind, Option.bind_some, record, hmoved, hlen, hdrop] at hd
    by_cases hlast : i = M.length
    · subst hlast
      simp only [ne_eq, not_true_eq_false, if_false, Option.some.injEq] at hd
      subst hd
      rw [hM, List.getElem?_concat_length] at hgone
      obtain rfl := Option.some.inj hgone
      have hF : Indexed { F with
          leaves := M
          journal := F.journal.map (· ++ [.deleted M.length moved]) } (positions 0 F.leaves) := h
      have hrem := hF.remove (Q := positions 0 M) moved M.length fun x => by
        rw [hM, positions_concat]
      refine hrem.of_maps rfl rfl fun x => ?_
      dsimp only
      rw [indexRemove_leaves]
    · simp only [ne_eq, hlast, not_false_eq_true, if_true, Option.some.injEq] at hd
      subst hd
      rw [hM, List.getElem?_append_left (by
        have := (List.getElem?_eq_some_iff.mp hgone).1
        rw [List.length_append, List.length_singleton] at this
        omega)] at hgone
      have hF : Indexed { F with
          leaves := M
          journal := F.journal.map (· ++ [.deleted i gone]) } (positions 0 (M ++ [moved])) := by
        rw [← hM]
        exact h
      refine (hF.move hgone).of_maps rfl rfl fun x => ?_
      simp only [repair, indexInsert_leaves, indexRemove_leaves]

/-- The inverse: the moved leaf loses the slot it was given, the gone one gets it back, and the
    moved one goes back to the end. -/
theorem IndexKept.undoDelete {G : Forest H} {i : ℕ} {gone : H} (h : F.IndexKept)
    (hd : F.undoDelete parent i gone = some G) : G.IndexKept := by
  unfold Forest.undoDelete at hd
  by_cases hlast : i = F.leaves.length
  · subst hlast
    simp only [if_true, Option.bind_eq_bind, Option.bind_some, Option.some.injEq] at hd
    subst hd
    refine (Indexed.insert h gone F.leaves.length).of_maps rfl rfl fun x => ?_
    simp only [repair, indexInsert_leaves, positions_concat]
  · rw [if_neg hlast] at hd
    cases hmoved : F.leaves[i]? with
    | none => simp [hmoved] at hd
    | some moved =>
      obtain ⟨hi, rfl⟩ := List.getElem?_eq_some_iff.mp hmoved
      simp only [hmoved, Option.bind_eq_bind, Option.bind_some, Option.some.injEq] at hd
      subst hd
      obtain ⟨R, hR⟩ := exists_positions_set hi 0
      have hP (x : H) : positions 0 F.leaves x = R x + spot F.leaves[i] x i := by
        have := hR F.leaves[i] x
        rwa [List.set_getElem_self, zero_add] at this
      have h1 : Indexed { F.indexRemove F.leaves[i] i with leaves := F.leaves.set i gone } R :=
        Indexed.remove h _ _ hP
      refine ((h1.insert gone i).insert F.leaves[i] F.leaves.length).of_maps ?_ ?_ fun x => ?_
      · simp only [repair, indexRemove_leaves]
      · simp only [repair, indexRemove_leaves]
      · simp only [repair, indexInsert_leaves, indexRemove_leaves, positions_concat,
          List.length_set, hR, zero_add]

theorem IndexKept.undoOp {G : Forest H} {op : ForestOp H} (h : F.IndexKept)
    (hu : F.undoOp parent op = some G) : G.IndexKept := by
  cases op with
  | added =>
    obtain rfl := Option.some.inj hu
    exact h.undoAdd
  | deleted pos leaf => exact h.undoDelete hu

theorem IndexKept.undoOps {G : Forest H} {ops : List (ForestOp H)} (h : F.IndexKept)
    (hu : F.undoOps parent ops = some G) : G.IndexKept := by
  exact Runs.foldlM_invariant (fun _ _ _ _ h hop => h.undoOp hop) (show F.takeJournal.IndexKept from h)
    hu

/-- Every operation of the interface keeps the maps. -/
theorem IndexKept.step {G : Forest H} {op : Op H} (h : F.IndexKept)
    (hs : F.step parent op = some G) : G.IndexKept := by
  cases op with
  | add leaf =>
    obtain rfl := Option.some.inj hs
    exact h.add leaf
  | delete i => exact h.delete hs
  | undoAdd =>
    obtain rfl := Option.some.inj hs
    exact h.undoAdd
  | undoDelete i gone => exact h.undoDelete hs
  | undoOps ops => exact h.undoOps hs
  | beginJournal =>
    obtain rfl := Option.some.inj hs
    exact h
  | takeJournal =>
    obtain rfl := Option.some.inj hs
    exact h

/-! ## `from_leaves` -/

/-- The index loop meets the positions in ascending order, as long as they fit a `u32`. -/
theorem IndexKept.fromLeaves (hlen : L.length ≤ 2 ^ 32) : (fromLeaves parent L).IndexKept := by
  -- the loop goes from the left, so a new place is above those that the leaf has
  have hloop : ∀ M : List H, M.length ≤ 2 ^ 32 → ∀ x, ∃ v : List ℕ, v.Pairwise (· ≤ ·) ∧
      (∀ p ∈ v, p < M.length) ∧ (v : Multiset ℕ) = positions 0 M x ∧
      (fromLeavesIndex M).1 x = v.head? ∧ (fromLeavesIndex M).2 x = restOf v := by
    intro M
    induction M using List.reverseRecOn with
    | nil => exact fun _ _ => ⟨[], List.Pairwise.nil, by simp, rfl, rfl, rfl⟩
    | append_singleton M y ih =>
      intro hM x
      rw [List.length_append, List.length_singleton] at hM ⊢
      obtain ⟨v, hv, hlt, hvP, hvi, hvd⟩ := ih (by omega) x
      have hpos : asU32 M.length = M.length := Nat.mod_eq_of_lt (by omega)
      have hfold : fromLeavesIndex (M ++ [y]) = sighting (fromLeavesIndex M) y M.length := by
        simp [fromLeavesIndex, List.zipIdx_append]
      rw [positions_concat, ← hvP, hfold, spot, sighting, hpos]
      by_cases hx : y = x
      · subst hx
        rw [if_pos rfl, hvi, hvd]
        refine ⟨v ++ [M.length], ?_, ?_, rfl, ?_, ?_⟩
        · rw [List.pairwise_append]
          exact ⟨hv, by simp, fun a ha b hb => by
            rw [List.mem_singleton.mp hb]
            exact (hlt a ha).le⟩
        · intro p hp
          rcases List.mem_append.mp hp with hp | hp
          · have := hlt p hp
            omega
          · rw [List.mem_singleton.mp hp]
            omega
        · cases v with
          | nil => simp
          | cons first w => simpa using hvi
        · cases v with
          | nil => exact hvd
          | cons first w =>
            simp only [List.head?_cons, Function.update_self, getD_restOf]
            simp [restOf]
      · rw [if_neg hx, add_zero]
        refine ⟨v, hv, fun p hp => Nat.lt_succ_of_lt (hlt p hp), rfl, ?_, ?_⟩
        · rw [← hvi]
          cases (fromLeavesIndex M).1 y <;> simp [Function.update_of_ne (Ne.symm hx)]
        · rw [← hvd]
          cases (fromLeavesIndex M).1 y <;> simp [Function.update_of_ne (Ne.symm hx)]
  intro x
  obtain ⟨v, hv, -, hvP, hvi, hvd⟩ := hloop L hlen x
  exact ⟨v, hv, hvP, hvi, hvd⟩

/-! ## Finding a leaf -/

theorem mem_positions {x : H} {n p : ℕ} :
    p ∈ positions n L x ↔ ∃ i, L[i]? = some x ∧ p = asU32 (n + i) := by
  induction L generalizing n with
  | nil => simp [positions]
  | cons y L ih =>
    rw [positions, Multiset.mem_add, ih, spot]
    constructor
    · rintro (h | ⟨i, hi, rfl⟩)
      · split at h
        · next hy => exact ⟨0, congrArg some hy, Multiset.mem_singleton.mp h⟩
        · exact absurd h (Multiset.notMem_zero p)
      · exact ⟨i + 1, hi, congrArg asU32 (by rw [Nat.add_assoc, Nat.add_comm 1])⟩
    · rintro ⟨i, hi, rfl⟩
      cases i with
      | zero => exact .inl (by rw [if_pos (Option.some.inj hi)]; exact Multiset.mem_singleton_self _)
      | succ i => exact .inr ⟨i, hi, congrArg asU32 (by rw [Nat.add_assoc, Nat.add_comm 1])⟩

/-- Where `find` points the leaf stands, as long as the positions fit the index. -/
theorem IndexKept.getElem?_find (h : F.IndexKept) (hlen : F.leaves.length ≤ 2 ^ 32) {x : H}
    {pos : ℕ} (hfind : F.find x = some pos) : F.leaves[pos]? = some x := by
  obtain ⟨v, -, hv, hindex, -⟩ := h x
  have hmem : pos ∈ v := List.mem_of_mem_head? (hindex.symm.trans hfind)
  obtain ⟨i, hi, rfl⟩ := mem_positions.mp (hv ▸ Multiset.mem_coe.mpr hmem)
  have hlt := (List.getElem?_eq_some_iff.mp hi).1
  rwa [Nat.zero_add, asU32, Nat.mod_eq_of_lt (lt_of_lt_of_le hlt hlen)]

/-- A leaf that is there is found. -/
theorem IndexKept.find_isSome (h : F.IndexKept) {x : H} (hx : x ∈ F.leaves) :
    (F.find x).isSome := by
  obtain ⟨i, hi⟩ := List.getElem?_of_mem hx
  obtain ⟨v, -, hv, hindex, -⟩ := h x
  have hmem : asU32 i ∈ v :=
    Multiset.mem_coe.mp (hv ▸ mem_positions.mpr ⟨i, hi, by rw [Nat.zero_add]⟩)
  rw [find, hindex, List.isSome_head?]
  exact List.ne_nil_of_mem hmem

/-! ## Recording a run and inverting it -/

/-- The states the operations reach from an empty forest, or from one built over leaves whose
    positions fit the index. -/
inductive Reachable (parent : H → H → H) : Forest H → Prop
  | new : Reachable parent new
  | fromLeaves (L : List H) (hlen : L.length < 2 ^ 32) : Reachable parent (fromLeaves parent L)
  | step {F G : Forest H} (op : Op H) (hF : Reachable parent F)
      (hstep : F.step parent op = some G) : Reachable parent G

theorem Reachable.indexKept (h : Reachable parent F) : F.IndexKept := by
  induction h with
  | new => exact .new
  | fromLeaves L hlen => exact .fromLeaves hlen.le
  | step op _ hstep ih => exact ih.step hstep

theorem Reachable.kept (h : Reachable parent F) : Kept parent F F.leaves := by
  induction h with
  | new => exact .new
  | fromLeaves L _ => exact .fromLeaves L
  | @step F G op _ hstep ih =>
    have hrel := ih.step op
    rw [hstep] at hrel
    generalize ListModel.step F.leaves op = o at hrel
    cases hrel with
    | some h => exact ⟨rfl, h.cache⟩

/-- The two operations a block applies, which the journal records. -/
def Op.Mutation : Op H → Prop
  | .add _ => True
  | .delete _ => True
  | _ => False

/-- The forest records, and what it has recorded takes its leaves back to `L`. -/
def Recorded (L : List H) (F : Forest H) : Prop :=
  ∃ ops, F.journal = some ops ∧ ops.reverse.foldlM ListModel.undoOp F.leaves = some L

/-- What a delete does to the leaves and to the journal. -/
theorem delete_journal {G : Forest H} {i : ℕ} (hd : F.delete parent i = some G) :
    ∃ gone, F.leaves[i]? = some gone ∧ G.leaves = swapRemove F.leaves i ∧
      G.journal = F.journal.map (· ++ [.deleted i gone]) := by
  unfold Forest.delete at hd
  cases hgone : F.leaves[i]? with
  | none => simp [hgone] at hd
  | some gone =>
    obtain ⟨moved, hmoved, -⟩ := getLast?_of_lt (List.getElem?_eq_some_iff.mp hgone).1
    have hi := (List.getElem?_eq_some_iff.mp hgone).1
    simp only [hgone, Option.bind_eq_bind, Option.bind_some, record, hmoved] at hd
    refine ⟨gone, rfl, ?_⟩
    by_cases hlast : i = F.leaves.length - 1
    · simp only [hlast, ne_eq, not_true_eq_false, if_false, Option.some.injEq] at hd
      subst hd
      rw [swapRemove_last (by omega)]
      simp [hlast]
    · simp only [ne_eq, hlast, not_false_eq_true, if_true, Option.some.injEq] at hd
      subst hd
      simp [repair, swapRemove_of_lt hmoved]

/-- Each recorded step is undone by the entry it appends. -/
theorem Recorded.step {G : Forest H} {op : Op H} (hop : op.Mutation) (h : F.Recorded L)
    (hs : F.step parent op = some G) : G.Recorded L := by
  obtain ⟨ops, hops, hback⟩ := h
  cases op with
  | add leaf =>
    obtain rfl := Option.some.inj hs
    refine ⟨ops ++ [.added], by simp [Forest.add, record, hops], ?_⟩
    rw [List.reverse_append]
    simpa [Forest.add, record, ListModel.undoOp] using hback
  | delete i =>
    obtain ⟨gone, hgone, hleaves, hjournal⟩ := delete_journal hs
    refine ⟨ops ++ [.deleted i gone], by rw [hjournal, hops]; rfl, ?_⟩
    have hi := (List.getElem?_eq_some_iff.mp hgone).1
    rw [List.reverse_append, hleaves]
    simp only [List.reverse_singleton, List.singleton_append, List.foldlM_cons,
      ListModel.undoOp, ListModel.undoDelete, length_swapRemove]
    rw [if_pos (by omega), unswap_swapRemove hgone]
    exact hback
  | _ => exact hop.elim

/-- Undoing records nothing of its own. -/
theorem undoOp_journal {G : Forest H} {op : ForestOp H} (hu : F.undoOp parent op = some G) :
    G.journal = F.journal := by
  cases op with
  | added =>
    obtain rfl := Option.some.inj hu
    show (F.undoAdd).2.journal = _
    unfold Forest.undoAdd
    split <;> simp
  | deleted pos leaf =>
    change F.undoDelete parent pos leaf = some G at hu
    unfold Forest.undoDelete at hu
    by_cases hlast : pos = F.leaves.length
    · subst hlast
      simp only [if_true, Option.bind_eq_bind, Option.bind_some, Option.some.injEq] at hu
      subst hu
      simp [repair]
    · cases hmoved : F.leaves[pos]? with
      | none => simp [hlast, hmoved] at hu
      | some moved =>
        simp only [hlast, if_false, hmoved, Option.bind_eq_bind, Option.bind_some,
          Option.some.injEq] at hu
        subst hu
        simp [repair]

/-- **A journalled run is exactly invertible.** From any reachable forest, record any adds and
    in-range deletes, take the journal and undo it: the leaves, the cached levels and both maps are
    those the run started from, and the recording is off. Leaves may be there many times over; which
    copy a delete takes is said by its position. -/
theorem undoOps_takeJournal (hF : Reachable parent F) {ops : List (Op H)}
    (hops : ∀ op ∈ ops, op.Mutation) (hrange : ListModel.run F.leaves ops = some L) :
    ∃ G, F.beginJournal.run parent ops = some G ∧
      G.takeJournal.undoOps parent G.journalOps = some { F with journal := none } := by
  have hrel := (show Kept parent F.beginJournal F.leaves from ⟨rfl, hF.kept.cache⟩).run ops
  rw [hrange] at hrel
  cases hrun : F.beginJournal.run parent ops with
  | none => rw [hrun] at hrel; cases hrel
  | some G =>
    rw [hrun] at hrel
    cases hrel with
    | some hG =>
      refine ⟨G, rfl, ?_⟩
      -- the recorded operations take the leaves back
      obtain ⟨js, hjs, hback⟩ : G.Recorded F.leaves :=
        Runs.foldlM_invariant (fun op hop _ _ h hs => h.step (hops op hop) hs)
          (show F.beginJournal.Recorded F.leaves from ⟨[], rfl, rfl⟩) hrun
      have hundo := (show Kept parent G.takeJournal G.leaves from
        ⟨rfl, hG.cache⟩).undoOps js
      have hindex : G.IndexKept :=
        Runs.foldlM_invariant (fun _ _ _ _ h hs => h.step hs)
          (show F.beginJournal.IndexKept from hF.indexKept) hrun
      rw [hback] at hundo
      rw [journalOps, hjs, Option.getD_some]
      cases hdone : G.takeJournal.undoOps parent js with
      | none => rw [hdone] at hundo; cases hundo
      | some K =>
        rw [hdone] at hundo
        cases hundo with
        | some hK =>
          -- the rest is determined by the leaves
          have hmaps := (show K.IndexKept from IndexKept.undoOps
            (show G.takeJournal.IndexKept from hindex) hdone)
          rw [IndexKept, hK.leaves] at hmaps
          obtain ⟨hi, hd⟩ := hmaps.unique hF.indexKept
          have hj : K.journal = none :=
            Runs.foldlM_invariant (p := fun K : Forest H => K.journal = none)
              (fun _ _ _ _ h hs => (undoOp_journal hs).trans h) rfl hdone
          have hcache := hK.cache
          rw [hK.leaves] at hcache
          exact congrArg some (Forest.ext hK.leaves hj (hcache.unique hF.kept.cache) hi hd)

/-- Duplicated leaves come and go, and the forest is what it was. -/
theorem undoOps_takeJournal_duplicates :
    ∃ G, (fromLeaves (fun a b : ℕ => 2 ^ a * 3 ^ b) [7, 8, 7, 9]).beginJournal.run
        (fun a b => 2 ^ a * 3 ^ b) [.delete 0, .add 7, .delete 1, .add 8] = some G ∧
      G.takeJournal.undoOps (fun a b => 2 ^ a * 3 ^ b) G.journalOps =
        some (fromLeaves (fun a b : ℕ => 2 ^ a * 3 ^ b) [7, 8, 7, 9]) :=
  undoOps_takeJournal (.fromLeaves [7, 8, 7, 9] (by decide)) (by simp [Op.Mutation]) rfl

end Forest
end Accumulator
end Hazync
