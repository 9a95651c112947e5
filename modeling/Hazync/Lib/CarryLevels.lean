import Mathlib.Algebra.Order.Group.Nat
import Mathlib.Data.List.Basic
import Mathlib.Tactic.Common

/-!
# Reducing a list level by level

A level joins the neighbours of the one below, an odd last element is carried up as it is, and
the reduction ends at the level of one element. How wide a level is depends on the number of
leaves alone, so the places of the tree can be laid out before anything has been joined.

## Odd elements

In a complete tree each level has half as many elements as the one below. Here the number of leaves
is arbitrary, and at each level at most one element has no neighbour. It is carried up unchanged, so
that it may meet a neighbour on a higher level, or be carried several times. The alternative, to
join it with a copy of itself, would have the result of a list with its last element doubled.

The two lemmas on `getElem?` say where an element of a level comes from: below the middle from two,
and at the odd end from one. Together with `length_nextLevel` they describe a level by its
positions, which is how a scheduler sees it that fills the places one by one.
-/

namespace CarryLevels

variable {α : Type*} (f : α → α → α)

/-- Neighbours joined, the odd last element carried. -/
def nextLevel : List α → List α
  | [] => []
  | [a] => [a]
  | a :: b :: l => f a b :: nextLevel l

/-- The level `k` above a list. -/
def level : ℕ → List α → List α
  | 0, l => l
  | k + 1, l => nextLevel f (level k l)

/-- How wide the level `k` above `n` elements is. -/
def width (n : ℕ) : ℕ → ℕ
  | 0 => n
  | k + 1 => width n k / 2 + width n k % 2

variable {f} {l : List α} {n k p : ℕ}

@[simp] theorem level_zero : level f 0 l = l := rfl

@[simp] theorem level_succ : level f (k + 1) l = nextLevel f (level f k l) := rfl

@[simp] theorem width_zero : width n 0 = n := rfl

theorem width_succ : width n (k + 1) = width n k / 2 + width n k % 2 := rfl

/-- Half of the elements, rounded up. -/
theorem length_nextLevel : (nextLevel f l).length = l.length / 2 + l.length % 2 := by
  induction l using nextLevel.induct with
  | case1 => simp [nextLevel]
  | case2 => simp [nextLevel]
  | case3 a b l ih =>
    simp only [nextLevel, List.length_cons, ih]
    omega

/-- The width of a level depends on the number of leaves only. -/
theorem length_level : (level f k l).length = width l.length k := by
  induction k with
  | zero => rfl
  | succ k ih => rw [level_succ, length_nextLevel, ih, width_succ]

/-- Below the middle, an element joins the two it stands over. -/
theorem getElem?_nextLevel {a b : α} (ha : l[p * 2]? = some a) (hb : l[p * 2 + 1]? = some b) :
    (nextLevel f l)[p]? = some (f a b) := by
  induction l using nextLevel.induct generalizing p with
  | case1 => simp at ha
  | case2 c => simp at hb
  | case3 c d l ih =>
    cases p with
    | zero =>
      obtain rfl := Option.some.inj ha
      obtain rfl := Option.some.inj hb
      rfl
    | succ p =>
      rw [Nat.succ_mul] at ha hb
      exact ih ha hb

/-- The odd last element is carried. -/
theorem getElem?_nextLevel_odd (h : l.length % 2 = 1) :
    (nextLevel f l)[l.length / 2]? = l[l.length - 1]? := by
  induction l using nextLevel.induct with
  | case1 => simp [nextLevel]
  | case2 => simp [nextLevel]
  | case3 a b l ih =>
    have hlen : (a :: b :: l).length = l.length + 2 := rfl
    rw [hlen] at h ⊢
    rw [show (l.length + 2) / 2 = l.length / 2 + 1 by omega,
      show l.length + 2 - 1 = l.length - 1 + 1 + 1 by omega]
    exact ih (by omega)

/-- A level more, at the bottom. -/
theorem level_nextLevel : level f k (nextLevel f l) = level f (k + 1) l := by
  induction k with
  | zero => rfl
  | succ k ih => rw [level_succ, ih, ← level_succ]

/-! ## How wide the levels are -/

/-- A level more, at the bottom. -/
theorem width_width : width (width n 1) k = width n (k + 1) := by
  induction k with
  | zero => rfl
  | succ k ih => rw [width_succ, ih, ← width_succ]

/-- No level is empty. -/
theorem width_pos (h : 0 < n) : 0 < width n k := by
  induction k with
  | zero => exact h
  | succ k ih =>
    rw [width_succ]
    omega

/-- No level is wider than the leaves. -/
theorem width_le : width n k ≤ n := by
  induction k with
  | zero => exact le_rfl
  | succ k ih =>
    rw [width_succ]
    omega

/-- A place stands under one of the level above. -/
theorem half_lt_width (h : p < width n k) : p / 2 < width n (k + 1) := by
  rw [width_succ]
  omega

end CarryLevels
