import Mathlib.Data.List.Basic
import Mathlib.Data.List.Perm.Basic
import Mathlib.Data.Multiset.AddSub
import Mathlib.Tactic.Common

/-!
# Swap-and-shrink on a list

`swapRemove L i` moves the last entry into slot `i` and drops the last slot. As a list it
reorders; as a multiset it removes exactly the entry that stood at `i`.

## Undoing it

Removing from the middle of an array takes time if the order is to be kept, so where the order does
not matter the last entry is moved into the gap. This can be undone, with the position and the entry
that was removed: the entry that now stands at the position was the last one, and goes back to the
end (`unswap_swapRemove`). If the last entry itself was removed there is nothing at the position,
and it is just put back. That is the one case in which `unswap` has to look.

Later positions are moved by a removal, so several of them are undone in the opposite order.
-/

namespace SwapRemove

variable {α : Type*}

/-- Overwrite slot `i` with the last entry, then drop the last slot. -/
def swapRemove (L : List α) (i : ℕ) : List α :=
  match L.getLast? with
  | none => L
  | some l => (L.set i l).dropLast

@[simp] theorem swapRemove_nil (i : ℕ) : swapRemove ([] : List α) i = [] := rfl

/-- With the last entry known. -/
theorem swapRemove_of_getLast? {L : List α} {l : α} (h : L.getLast? = some l) (i : ℕ) :
    swapRemove L i = (L.set i l).dropLast := by rw [swapRemove, h]

/-- A list with a slot has a last entry. -/
theorem getLast?_of_lt {L : List α} {i : ℕ} (h : i < L.length) :
    ∃ l, L.getLast? = some l ∧ L[L.length - 1]? = some l := by
  refine ⟨L[L.length - 1], ?_, List.getElem?_eq_getElem _⟩
  rw [List.getLast?_eq_getElem?, List.getElem?_eq_getElem]

/-- One entry less. -/
@[simp] theorem length_swapRemove (L : List α) (i : ℕ) :
    (swapRemove L i).length = L.length - 1 := by
  unfold swapRemove
  split
  · rename_i h
    rw [List.getLast?_eq_none_iff.mp h]
    rfl
  · rw [List.length_dropLast, List.length_set]

/-- Removing the last slot moves nothing. -/
theorem swapRemove_last {L : List α} {i : ℕ} (h : i + 1 = L.length) :
    swapRemove L i = L.dropLast := by
  obtain ⟨l, hl, -⟩ := getLast?_of_lt (L := L) (i := i) (by omega)
  rw [swapRemove_of_getLast? hl, List.dropLast_eq_take, List.dropLast_eq_take, List.length_set,
    List.take_set, show L.length - 1 = i by omega]
  exact List.set_eq_of_length_le (by rw [List.length_take]; omega)

/-- Away from the last slot, shrink and overwrite commute. -/
theorem swapRemove_of_lt {L : List α} {i : ℕ} {l : α} (hl : L.getLast? = some l) :
    swapRemove L i = L.dropLast.set i l := by
  rw [swapRemove_of_getLast? hl, List.dropLast_eq_take, List.dropLast_eq_take, List.length_set,
    List.take_set]

/-- Undo a `swapRemove` of slot `i` that took `x`: the entry standing at `i` goes back to the
    end. -/
def unswap (L : List α) (i : ℕ) (x : α) : List α :=
  if i = L.length then L ++ [x]
  else match L[i]? with
    | none => L
    | some moved => L.set i x ++ [moved]

/-- With the entry that was taken, the list is as before. -/
theorem unswap_swapRemove {L : List α} {i : ℕ} {x : α} (hx : L[i]? = some x) :
    unswap (swapRemove L i) i x = L := by
  obtain ⟨hi, hxi⟩ := List.getElem?_eq_some_iff.mp hx
  obtain ⟨l, hl, -⟩ := getLast?_of_lt hi
  obtain ⟨M, rfl⟩ : ∃ M, L = M ++ [l] := List.getLast?_eq_some_iff.mp hl
  rw [List.length_append, List.length_singleton] at hi
  rw [swapRemove_of_lt hl, List.dropLast_concat, unswap, List.length_set]
  by_cases hlast : i = M.length
  · subst hlast
    rw [if_pos rfl, List.set_eq_of_length_le le_rfl]
    simp at hx
    rw [hx]
  · have hlt : i < M.length := by omega
    rw [List.getElem?_append_left hlt] at hx
    rw [if_neg hlast, List.getElem?_set_self hlt, List.set_set]
    have hset : M.set i x = M := by
      apply List.ext_getElem?
      intro j
      rw [List.getElem?_set]
      by_cases hj : i = j
      · rw [if_pos hj, if_pos (by omega), ← hj, hx]
      · rw [if_neg hj]
    simp only [hset]

/-- As a multiset, the entry at the slot is gone. -/
theorem cons_swapRemove_perm {L : List α} {i : ℕ} {x : α} (hx : L[i]? = some x) :
    (x :: swapRemove L i).Perm L := by
  obtain ⟨hi, rfl⟩ := List.getElem?_eq_some_iff.mp hx
  obtain ⟨l, hl, hl'⟩ := getLast?_of_lt hi
  obtain ⟨M, rfl⟩ : ∃ M, L = M ++ [l] := List.getLast?_eq_some_iff.mp hl
  rw [swapRemove_of_lt hl, List.dropLast_concat]
  rw [List.length_append, List.length_singleton] at hi
  rcases Nat.lt_or_ge i M.length with hlt | hge
  · have hsplit : M = M.take i ++ M[i] :: M.drop (i + 1) := by
      rw [← List.drop_eq_getElem_cons hlt, List.take_append_drop]
    rw [List.getElem_append_left hlt, List.set_eq_take_append_cons_drop, if_pos hlt]
    conv_rhs => rw [hsplit]
    rw [List.append_assoc, List.cons_append]
    refine (List.perm_middle.symm.trans ?_)
    refine List.Perm.append_left _ (List.Perm.cons _ ?_)
    exact (List.perm_append_singleton l _).symm
  · rw [List.set_eq_of_length_le hge]
    have : (M ++ [l])[i] = l := by
      rw [List.getElem_append_right hge]
      simp
    rw [this]
    exact (List.perm_append_singleton l M).symm

/-! ## By value -/

section Erase

variable [DecidableEq α] {L : List α} {x : α}

/-- The first place of `x` goes to the last entry. -/
def swapErase (L : List α) (x : α) : List α := swapRemove L (L.idxOf x)

/-- Where no entry comes twice, the place of a value is known. -/
theorem swapErase_of_getElem? {i : ℕ} (hnodup : L.Nodup) (hx : L[i]? = some x) :
    swapErase L x = swapRemove L i := by
  obtain ⟨hi, rfl⟩ := List.getElem?_eq_some_iff.mp hx
  rw [swapErase, hnodup.idxOf_getElem]

/-- As a multiset, the value is gone once. -/
theorem cons_swapErase_perm (hx : x ∈ L) : (x :: swapErase L x).Perm L := by
  have hlt := List.idxOf_lt_length_of_mem hx
  refine cons_swapRemove_perm ?_
  rw [List.getElem?_eq_getElem hlt, List.getElem_idxOf]

/-- No entry comes twice after it. -/
theorem nodup_swapErase (hnodup : L.Nodup) (hx : x ∈ L) : (swapErase L x).Nodup :=
  (List.nodup_cons.mp ((cons_swapErase_perm hx).nodup_iff.mpr hnodup)).2

/-- What is left was there. -/
theorem mem_of_mem_swapErase {y : α} (hx : x ∈ L) (hy : y ∈ swapErase L x) : y ∈ L :=
  (cons_swapErase_perm hx).subset (List.mem_cons_of_mem _ hy)

end Erase

end SwapRemove
