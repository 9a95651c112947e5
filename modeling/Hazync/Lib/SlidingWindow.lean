import Mathlib.Algebra.Order.Group.Defs
import Mathlib.Algebra.Order.Group.Unbundled.Basic
import Mathlib.Data.List.Basic
import Mathlib.Tactic.Common

/-!
# Counts in a sliding window

A log of times, in order, and the part of it that is less than `w` old. A log that takes a new time
only while fewer than `n` are recent has at most `n` times in any half-open window of length `w`.

## Looking back is enough

A limit of `n` in any window of length `w` is about windows that lie anywhere, those that are half
over included. A program that takes a new time looks back only: it counts the times that are less
than `w` old. This is enough, since a window that the new time is in cannot reach further back than
`w` from it, and the times in a window that it is not in were counted before (`Limited.concat`).

The log may be pruned in the meantime. What was too old once is too old later, as long as the clock
does not go back, so that it makes no difference whether one looks at the log or at what was left of
it (`recent_recent`).
-/

namespace SlidingWindow

variable {α : Type*} [AddCommGroup α] [LinearOrder α]
variable {w now now' : α} {l : List α} {n : ℕ}

/-- The times that are less than `w` old. -/
def recent (w now : α) (l : List α) : List α := l.filter fun t => now - t < w

/-- A time of the log that is less than `w` old. -/
@[simp] theorem mem_recent {t : α} : t ∈ recent w now l ↔ t ∈ l ∧ now - t < w := by
  simp [recent]

@[simp] theorem recent_nil : recent w now ([] : List α) = [] := rfl

/-- The recent times of two stretches. -/
theorem recent_append (xs ys : List α) :
    recent w now (xs ++ ys) = recent w now xs ++ recent w now ys := List.filter_append ..

/-- The times from `a` up to, and without, `a + w`. -/
def window (w a : α) (l : List α) : List α := l.filter fun t => a ≤ t ∧ t < a + w

/-- At most `n` times in any window. -/
def Limited (w : α) (n : ℕ) (l : List α) : Prop := ∀ a, (window w a l).length ≤ n

/-- No times, no more than the limit. -/
theorem Limited.nil : Limited w n [] := by
  intro a
  exact Nat.zero_le n

variable [IsOrderedAddMonoid α]

/-- What has aged stays aged. -/
theorem recent_recent (h : now ≤ now') : recent w now' (recent w now l) = recent w now' l := by
  unfold recent
  rw [List.filter_filter]
  apply List.filter_congr
  intro t _
  have himp : now' - t < w → now - t < w := by
    intro hlt
    exact lt_of_le_of_lt (sub_le_sub_right h t) hlt
  by_cases hlt : now' - t < w
  · simp [hlt, himp hlt]
  · simp [hlt]

/-- A log whose last time has aged has no recent time. -/
theorem recent_eq_nil (hsorted : l.Pairwise (· ≤ ·)) (hlast : ∀ t ∈ l.getLast?, w ≤ now - t) :
    recent w now l = [] := by
  apply List.filter_eq_nil_iff.mpr
  intro t ht
  rcases List.eq_nil_or_concat' l with rfl | ⟨init, last, rfl⟩
  · cases ht
  · have hle : t ≤ last := by
      rcases List.mem_append.mp ht with hinit | hmem
      · exact (List.pairwise_append.mp hsorted).2.2 t hinit last (List.mem_singleton_self last)
      · rw [List.mem_singleton.mp hmem]
    have hold : w ≤ now - last := hlast last (by simp)
    have hge : w ≤ now - t := hold.trans (sub_le_sub_left hle now)
    simpa using hge

/-- The window that the newest time is in has otherwise recent times only. -/
theorem Limited.concat (h : Limited w n l) (hfew : (recent w now l).length < n) :
    Limited w n (l ++ [now]) := by
  intro a
  unfold window
  rw [List.filter_append, List.length_append]
  by_cases hin : a ≤ now ∧ now < a + w
  · have hsub : (l.filter fun t => a ≤ t ∧ t < a + w).length ≤ (recent w now l).length := by
      apply List.Sublist.length_le
      apply List.monotone_filter_right
      intro t ht
      have hta : a ≤ t := (of_decide_eq_true ht).1
      have hlt : now - t < w := by
        rw [sub_lt_iff_lt_add]
        exact lt_of_lt_of_le hin.2 (by rw [add_comm]; exact add_le_add_right hta w)
      exact decide_eq_true hlt
    have hone : ([now].filter fun t => a ≤ t ∧ t < a + w).length ≤ 1 := List.length_filter_le _ _
    omega
  · have hnone : ([now].filter fun t => a ≤ t ∧ t < a + w) = [] := by
      simp only [List.filter_cons, decide_eq_true_eq, if_neg hin, List.filter_nil]
    have hold := h a
    unfold window at hold
    rw [hnone]
    simpa using hold

end SlidingWindow
