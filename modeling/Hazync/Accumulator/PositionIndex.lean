import Hazync.Accumulator.ForestJournal

/-!
# The position index is the linear scan

The maps are in the canonical form (`IndexKept`), so while every position fits a `u32` the list
they hold at a leaf is the strictly ascending list of the slots it stands in. `find` is then the
first of them and `dups` the others.

`find` answers the smallest position, and a caller that deletes by hash takes that one. So which of
several equal leaves a block's delete removes is fixed by the leaves alone and not by how they came
there, and the bridge and a forest that is built anew from its snapshot make the same proofs.
-/

namespace Hazync
namespace Accumulator
namespace Forest

variable {H : Type} [DecidableEq H] {parent : H → H → H} {F : Forest H} {L : List H}

/-- No slot is counted twice: each is its own `u32`. Above `2^32` leaves two slots share one, which
    is where the bound comes from. -/
theorem nodup_positions {n : ℕ} (hlen : n + L.length ≤ 2 ^ 32) (x : H) :
    (positions n L x).Nodup := by
  induction L generalizing n with
  | nil => exact Multiset.nodup_zero
  | cons y L ih =>
    rw [List.length_cons] at hlen
    have hrest := ih (n := n + 1) (by omega)
    unfold positions spot
    split
    · refine Multiset.nodup_add.mpr ⟨Multiset.nodup_singleton _, hrest, ?_⟩
      rw [Multiset.singleton_disjoint]
      intro hmem
      obtain ⟨i, hi, heq⟩ := mem_positions.mp hmem
      have hlt := (List.getElem?_eq_some_iff.mp hi).1
      unfold asU32 at heq
      rw [Nat.mod_eq_of_lt (by omega), Nat.mod_eq_of_lt (by omega)] at heq
      omega
    · rwa [zero_add]

/-- The list of positions behind both maps at `x`, as the scan of the leaves would write it:
    ascending, without repetition, with a member for each slot that holds `x` and for no other. -/
theorem IndexKept.exists_scan (h : F.IndexKept) (hlen : F.leaves.length ≤ 2 ^ 32) (x : H) :
    ∃ v : List ℕ, v.Pairwise (· < ·) ∧ (∀ p, p ∈ v ↔ F.leaves[p]? = some x) ∧
      F.find x = v.head? ∧ F.dups x = restOf v := by
  obtain ⟨v, hv, hvP, hindex, hdups⟩ := h x
  have hnodup : v.Nodup := by
    rw [← Multiset.coe_nodup, hvP]
    exact nodup_positions (by omega) x
  refine ⟨v, (hv.and hnodup).imp fun hab => lt_of_le_of_ne hab.1 hab.2, fun p => ?_, hindex, hdups⟩
  rw [← Multiset.mem_coe, hvP, mem_positions]
  constructor
  · rintro ⟨i, hi, rfl⟩
    have hlt := (List.getElem?_eq_some_iff.mp hi).1
    rwa [Nat.zero_add, asU32, Nat.mod_eq_of_lt (by omega)]
  · intro hp
    have hlt := (List.getElem?_eq_some_iff.mp hp).1
    exact ⟨p, hp, by rw [Nat.zero_add, asU32, Nat.mod_eq_of_lt (by omega)]⟩

/-- Two strictly ascending lists with the same members are the same. -/
theorem ascending_ext {v w : List ℕ} (hv : v.Pairwise (· < ·)) (hw : w.Pairwise (· < ·))
    (h : ∀ p, p ∈ v ↔ p ∈ w) : v = w :=
  List.Perm.eq_of_pairwise' hv hw ((List.perm_ext_iff_of_nodup
    (hv.imp Nat.ne_of_lt) (hw.imp Nat.ne_of_lt)).mpr h)

/-- The head of an ascending list is its least member. -/
theorem head?_eq_some_iff {v : List ℕ} (hv : v.Pairwise (· < ·)) {p : ℕ} :
    v.head? = some p ↔ p ∈ v ∧ ∀ q < p, q ∉ v := by
  cases v with
  | nil => simp
  | cons a w =>
    rw [List.pairwise_cons] at hv
    rw [List.head?_cons, Option.some.injEq]
    constructor
    · rintro rfl
      refine ⟨List.mem_cons_self, fun q hq hqv => ?_⟩
      rcases List.mem_cons.mp hqv with rfl | hqw
      · exact absurd hq (Nat.lt_irrefl q)
      · exact absurd hq (Nat.not_lt.mpr (hv.1 q hqw).le)
    · rintro ⟨hp, hleast⟩
      rcases List.mem_cons.mp hp with rfl | hp
      · rfl
      · exact absurd List.mem_cons_self (hleast a (hv.1 p hp))

/-- In an ascending list, the members that are not its head are those with a smaller one. -/
theorem mem_tail_iff {v : List ℕ} (hv : v.Pairwise (· < ·)) {p : ℕ} :
    p ∈ v.tail ↔ p ∈ v ∧ ∃ q < p, q ∈ v := by
  cases v with
  | nil => simp
  | cons a w =>
    rw [List.pairwise_cons] at hv
    constructor
    · intro hp
      exact ⟨List.mem_cons_of_mem _ hp, a, hv.1 p hp, List.mem_cons_self⟩
    · rintro ⟨hp, q, hq, hqv⟩
      rcases List.mem_cons.mp hp with rfl | hp
      · rcases List.mem_cons.mp hqv with rfl | hqw
        · exact absurd hq (Nat.lt_irrefl q)
        · exact absurd hq (Nat.not_lt.mpr (hv.1 q hqw).le)
      · exact hp

/-- **The position index equals the linear scan.** In every reachable forest of fewer than `2^32`
leaves `find` answers the smallest position of the hash, or nothing when it is absent, and `dups`
holds the other positions of each duplicated leaf, ascending, with no entry for a leaf that has
none. -/
theorem find_matches_linear_scan (hF : Reachable parent F) (hlen : F.leaves.length < 2 ^ 32)
    (x : H) :
    (∀ p, F.find x = some p ↔ F.leaves[p]? = some x ∧ ∀ q < p, F.leaves[q]? ≠ some x) ∧
    (F.find x = none ↔ x ∉ F.leaves) ∧
    (∀ v, F.dups x = some v ↔ v ≠ [] ∧ v.Pairwise (· < ·) ∧
      ∀ p, p ∈ v ↔ F.leaves[p]? = some x ∧ ∃ q < p, F.leaves[q]? = some x) := by
  obtain ⟨v, hv, hmem, hfind, hdups⟩ := hF.indexKept.exists_scan hlen.le x
  refine ⟨fun p => ?_, ?_, fun w => ?_⟩
  · rw [hfind, head?_eq_some_iff hv]
    simp only [hmem, ne_eq]
  · rw [hfind, List.head?_eq_none_iff, List.eq_nil_iff_forall_not_mem, List.mem_iff_getElem?]
    simp only [hmem, not_exists]
  · have htail (p : ℕ) :
        p ∈ v.tail ↔ F.leaves[p]? = some x ∧ ∃ q < p, F.leaves[q]? = some x := by
      rw [mem_tail_iff hv]
      simp only [hmem]
    rw [hdups, restOf]
    constructor
    · intro hw
      split at hw
      · cases hw
      · next hne =>
        obtain rfl := Option.some.inj hw
        exact ⟨hne, hv.tail, htail⟩
    · rintro ⟨hne, hw, hwmem⟩
      obtain rfl : w = v.tail :=
        ascending_ext hw hv.tail fun p => (hwmem p).trans (htail p).symm
      rw [if_neg hne]

/-- A leaf held three times: the first place in one map, the other two in the other. -/
theorem find_matches_linear_scan_duplicates :
    let F := (fromLeaves (fun a b : ℕ => 2 ^ a * 3 ^ b) [7, 8, 7, 7])
    (∀ p, F.find 7 = some p ↔ F.leaves[p]? = some 7 ∧ ∀ q < p, F.leaves[q]? ≠ some 7) ∧
    (F.find 7 = none ↔ 7 ∉ F.leaves) ∧
    (∀ v, F.dups 7 = some v ↔ v ≠ [] ∧ v.Pairwise (· < ·) ∧
      ∀ p, p ∈ v ↔ F.leaves[p]? = some 7 ∧ ∃ q < p, F.leaves[q]? = some 7) :=
  find_matches_linear_scan (.fromLeaves [7, 8, 7, 7] (by decide)) (by decide) 7

end Forest
end Accumulator
end Hazync
