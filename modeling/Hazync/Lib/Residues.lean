import Mathlib.Data.Nat.Periodic
import Mathlib.Algebra.BigOperators.Group.List.Basic
import Mathlib.Tactic.Linarith

/-!
# Sums along a window of residues

Consecutive numbers go through the residues of `a` in turn, so a window of `c * a` of them has
`c * r` residues below `r`. A sum of terms that are no more than `m` at such residues, and nothing
at the others, is no more than `m * (c * r)`.

## The bound that is meant

Think of an amount that falls due at each block of a window, but only for some heights, those whose
residue is small. The heights go up by one from block to block. If the window is no longer than `c`
full turns, then however it lies there are at most `c * r` heights that count; each adds at most
`m`, and the bound follows. A window that begins in the middle of a turn is no worse, since a full
turn from any number meets every residue once (`count_turn`).
-/

namespace Residues

/-- One turn from `h` on meets every residue once. -/
theorem count_turn {a r : ℕ} (hr : r ≤ a) (h : ℕ) :
    Nat.count (fun i => (h + i) % a < r) a = r := by
  have hperiodic : Function.Periodic (fun i => i % a < r) a := by
    intro i
    dsimp only
    rw [Nat.add_mod_right]
  have hwindow := Nat.filter_Ico_card_eq_of_periodic h a _ hperiodic
  have hzero : Nat.count (fun i => i % a < r) a = r := by
    rw [Nat.count_eq_card_filter_range]
    have heq : (Finset.range a).filter (fun i => i % a < r) = Finset.range r := by
      ext i
      rw [Finset.mem_filter, Finset.mem_range, Finset.mem_range]
      constructor
      · intro hi
        rw [Nat.mod_eq_of_lt hi.1] at hi
        exact hi.2
      · intro hi
        have hia := lt_of_lt_of_le hi hr
        exact ⟨hia, by rwa [Nat.mod_eq_of_lt hia]⟩
    rw [heq, Finset.card_range]
  refine Eq.trans ?_ (hwindow.trans hzero)
  rw [Nat.count_eq_card_filter_range]
  refine Finset.card_bij (fun i _ => h + i) ?_ ?_ ?_
  · intro i hi
    rw [Finset.mem_filter, Finset.mem_range] at hi
    rw [Finset.mem_filter, Finset.mem_Ico]
    exact ⟨⟨Nat.le_add_right h i, Nat.add_lt_add_left hi.1 h⟩, hi.2⟩
  · intro i _ j _ heq
    exact Nat.add_left_cancel heq
  · intro j hj
    rw [Finset.mem_filter, Finset.mem_Ico] at hj
    refine ⟨j - h, ?_, Nat.add_sub_cancel' hj.1.1⟩
    rw [Finset.mem_filter, Finset.mem_range, Nat.add_sub_cancel' hj.1.1]
    exact ⟨Nat.sub_lt_left_of_lt_add hj.1.1 hj.1.2, hj.2⟩

/-- So do `c` turns, `c` times. -/
theorem count_turns {a r : ℕ} (hr : r ≤ a) (h c : ℕ) :
    Nat.count (fun i => (h + i) % a < r) (c * a) = c * r := by
  induction c with
  | zero => rw [Nat.zero_mul, Nat.zero_mul, Nat.count_zero]
  | succ c ih =>
    have hturn : Nat.count (fun k => (h + (c * a + k)) % a < r) a = r := by
      have hshift := count_turn hr (h + c * a)
      simp only [Nat.add_assoc] at hshift
      exact hshift
    rw [Nat.succ_mul, Nat.count_add, ih, hturn, Nat.succ_mul]

/-- A window that is no longer has no more. -/
theorem count_window {a r n c : ℕ} (hr : r ≤ a) (h : ℕ) (hn : n ≤ c * a) :
    Nat.count (fun i => (h + i) % a < r) n ≤ c * r :=
  (Nat.count_monotone _ hn).trans (count_turns hr h c).le

/-- A sum along a window, of terms that count at the residues below `r` only. -/
theorem sum_window_le {a r n c : ℕ} {m : ℤ} (hr : r ≤ a) (h : ℕ) (hn : n ≤ c * a) (hm : 0 ≤ m)
    {f : ℕ → ℤ} (hf : ∀ i < n, f i ≤ if (h + i) % a < r then m else 0) :
    ((List.range n).map f).sum ≤ m * (c * r) := by
  have hcount : ((List.range n).map f).sum ≤ m * Nat.count (fun i => (h + i) % a < r) n := by
    clear hn
    induction n with
    | zero => simp
    | succ n ih =>
      have hle := ih fun i hi => hf i (Nat.lt_succ_of_lt hi)
      have hlast := hf n (Nat.lt_succ_self n)
      rw [List.range_succ, List.map_append, List.sum_append, List.map_singleton, List.sum_singleton,
        Nat.count_succ]
      split
      · rename_i hp
        rw [if_pos hp] at hlast
        push_cast
        linarith
      · rename_i hp
        rw [if_neg hp] at hlast
        rw [Nat.add_zero]
        linarith
  have hwindow : (Nat.count (fun i => (h + i) % a < r) n : ℤ) ≤ c * r := by
    exact_mod_cast count_window hr h hn
  exact hcount.trans (mul_le_mul_of_nonneg_left hwindow hm)

end Residues
