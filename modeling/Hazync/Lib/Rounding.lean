import Mathlib.Algebra.Order.Floor.Ring
import Mathlib.Tactic.Linarith
import Mathlib.Tactic.Ring

/-!
# Sums that are rounded

Rounding to the nearest multiple of a unit, with ties to the even one. A sum that is rounded at each
addition is off by half a unit for each, and by no less than that where the amounts are small: what
is less than half a unit is lost, however often it is added.

## Errors add up

A total that is stored to two digits, and read back to have the next amount added, is rounded once
for each amount. Nothing cancels in the worst case. So the bound on the distance from the exact
total grows by half a unit with each amount, and this is all that can be said without knowing the
amounts: `near_add` is the step of an induction along the additions. That the bound is not only
theoretical is seen from small amounts. Anything below half a unit, added to a multiple of the unit,
is rounded away (`roundTo_of_small` is the case of the first one).
-/

namespace Rounding

variable {α : Type*} [Field α] [LinearOrder α] [IsStrictOrderedRing α] [FloorRing α]
variable {x : α} {n : ℕ}

/-- The nearest integer, and the even one of two. -/
def roundEven (x : α) : ℤ :=
  if Int.fract x < 1 / 2 then ⌊x⌋
  else if 1 / 2 < Int.fract x then ⌊x⌋ + 1
  else if Even ⌊x⌋ then ⌊x⌋
  else ⌊x⌋ + 1

/-- The nearest multiple of `1 / n`. -/
def roundTo (n : ℕ) (x : α) : α := roundEven (x * n) / n

/-- Rounding to an integer is off by half of one at most. -/
theorem abs_roundEven_sub_le (x : α) : |(roundEven x : α) - x| ≤ 1 / 2 := by
  have hsplit := Int.floor_add_fract x
  have hlow := Int.fract_nonneg x
  have hhigh := Int.fract_lt_one x
  unfold roundEven
  rw [abs_le]
  split_ifs <;> push_cast <;> constructor <;> linarith

/-- Rounding to a multiple of a unit is off by half a unit at most. -/
theorem abs_roundTo_sub_le (hn : 0 < n) (x : α) : |roundTo n x - x| ≤ 1 / (2 * n) := by
  have hpos : (0 : α) < n := Nat.cast_pos.mpr hn
  have hround := abs_roundEven_sub_le (x * n)
  have hscale : roundTo n x - x = (roundEven (x * n) - x * n) / n := by
    unfold roundTo
    rw [sub_div, mul_div_cancel_right₀ x hpos.ne']
  calc |roundTo n x - x| = |(roundEven (x * n) : α) - x * n| / n := by
        rw [hscale, abs_div, abs_of_pos hpos]
    _ ≤ 1 / 2 / n := div_le_div_of_nonneg_right hround hpos.le
    _ = 1 / (2 * n) := by rw [div_div]

/-- What is less than half a unit is lost. -/
theorem roundTo_of_small (h : 0 ≤ x) (hsmall : x * n < 1 / 2) : roundTo n x = 0 := by
  have hpos : 0 ≤ x * n := mul_nonneg h (Nat.cast_nonneg n)
  have hfloor : ⌊x * n⌋ = 0 := by
    rw [Int.floor_eq_zero_iff]
    constructor
    · exact hpos
    · linarith
  have hfract : Int.fract (x * n) = x * n := by
    rw [← Int.self_sub_floor, hfloor, Int.cast_zero, sub_zero]
  unfold roundTo roundEven
  rw [hfract, if_pos hsmall, hfloor, Int.cast_zero, zero_div]

omit [FloorRing α] in
/-- One more amount, and one more error. -/
theorem near_add {round : α → α} {unit sum exact bound : α} (hround : ∀ x, |round x - x| ≤ unit)
    (h : |sum - exact| ≤ bound) (x : α) : |round (sum + x) - (exact + x)| ≤ bound + unit := by
  calc |round (sum + x) - (exact + x)|
      = |(round (sum + x) - (sum + x)) + (sum - exact)| := by congr 1; ring
    _ ≤ |round (sum + x) - (sum + x)| + |sum - exact| := abs_add_le _ _
    _ ≤ unit + bound := add_le_add (hround _) h
    _ = bound + unit := add_comm _ _

end Rounding
