import Mathlib.Data.Nat.Bitwise
import Mathlib.Tactic.Common
import Mathlib.Tactic.NormNum

/-!
# Bits of a 64-bit word, read as arithmetic

The shifts and masks a program writes on a `UInt64` are quotients and remainders by powers of
two of the number it holds. Each lemma is one such reading, with the side condition the
hardware shift has (the amount is below the width).

## Two ways to look at a shift

In a proof it is easiest to work with natural numbers, and to leave the words to a few lemmas that
translate. This is possible as long as every operation stays in range, and each lemma names the
range it needs. The second half is for code where the range is not obvious. There an operation out
of range is `none`, as it is a panic in a debug build, and a function that is built from such
operations has a value only if none of them went wrong. So "the function has a value" says that no
shift was too far and no difference negative.
-/

namespace Word64

/-- A shift amount is what it says. -/
theorem toNat_ofNat_of_lt {h : ℕ} (hh : h < 64) : (UInt64.ofNat h).toNat = h := by
  rw [UInt64.toNat_ofNat']
  exact Nat.mod_eq_of_lt (by omega)

/-- A shift by one is half. -/
@[simp] theorem toNat_shiftRight_one (p : UInt64) : (p >>> 1).toNat = p.toNat / 2 := by
  rw [UInt64.toNat_shiftRight]
  exact Nat.shiftRight_one _

/-- A shift by `h` is a quotient by `2 ^ h`. -/
theorem toNat_shiftRight (p : UInt64) {h : ℕ} (hh : h < 64) :
    (p >>> UInt64.ofNat h).toNat = p.toNat / 2 ^ h := by
  rw [UInt64.toNat_shiftRight, toNat_ofNat_of_lt hh, Nat.mod_eq_of_lt hh,
    Nat.shiftRight_eq_div_pow]

/-- The lowest bit is the remainder by 2. -/
theorem toNat_and_one (p : UInt64) : (p &&& 1).toNat = p.toNat % 2 := by
  rw [UInt64.toNat_and]
  exact Nat.and_one_is_mod _

/-- An even word. -/
theorem and_one_eq_zero (p : UInt64) : p &&& 1 = 0 ↔ p.toNat % 2 = 0 := by
  rw [← toNat_and_one, ← UInt64.toNat_inj]
  rfl

/-- An odd word. -/
theorem and_one_eq_one (p : UInt64) : p &&& 1 = 1 ↔ p.toNat % 2 = 1 := by
  rw [← toNat_and_one, ← UInt64.toNat_inj]
  rfl

/-- Bit `h` is set. -/
theorem bit_eq_one (p : UInt64) {h : ℕ} (hh : h < 64) :
    (p >>> UInt64.ofNat h) &&& 1 = 1 ↔ p.toNat / 2 ^ h % 2 = 1 := by
  rw [and_one_eq_one, toNat_shiftRight p hh]

/-- Bit `h` is clear. -/
theorem bit_eq_zero (p : UInt64) {h : ℕ} (hh : h < 64) :
    (p >>> UInt64.ofNat h) &&& 1 = 0 ↔ p.toNat / 2 ^ h % 2 = 0 := by
  rw [and_one_eq_zero, toNat_shiftRight p hh]

/-- A power of two. -/
theorem toNat_one_shiftLeft {h : ℕ} (hh : h < 64) :
    ((1 : UInt64) <<< UInt64.ofNat h).toNat = 2 ^ h := by
  rw [UInt64.toNat_shiftLeft, toNat_ofNat_of_lt hh, Nat.mod_eq_of_lt hh, UInt64.toNat_one,
    Nat.one_shiftLeft]
  exact Nat.mod_eq_of_lt (Nat.pow_lt_pow_right (by norm_num) hh)

/-- The mask of the low `j` bits is the remainder by `2 ^ j`. -/
theorem toNat_and_mask (p : UInt64) {j : ℕ} (hj : j < 64) :
    (p &&& ((1 : UInt64) <<< UInt64.ofNat j - 1)).toNat = p.toNat % 2 ^ j := by
  have hone : (1 : UInt64) ≤ (1 : UInt64) <<< UInt64.ofNat j := by
    rw [UInt64.le_iff_toNat_le, toNat_one_shiftLeft hj]
    exact Nat.one_le_two_pow
  rw [UInt64.toNat_and, UInt64.toNat_sub_of_le _ _ hone, toNat_one_shiftLeft hj,
    UInt64.toNat_one, Nat.and_two_pow_sub_one_eq_mod]

/-- One less, above 0. -/
theorem toNat_sub_one {n : UInt64} (h : 0 < n.toNat) : (n - 1).toNat = n.toNat - 1 := by
  rw [UInt64.toNat_sub_of_le _ _ (by rw [UInt64.le_iff_toNat_le]; exact h)]
  rfl

/-- One more, below the top. -/
theorem toNat_add_one {n : UInt64} (h : n.toNat + 1 < 2 ^ 64) :
    (n + 1).toNat = n.toNat + 1 := by
  rw [UInt64.toNat_add]
  exact Nat.mod_eq_of_lt h

/-! ## Operations that can go out of range

`none` is where the machine operation has no arithmetic reading: a shift by the width or more, a
difference below zero, a sum past the top. -/

/-- `a >> h` -/
def shr? (a : UInt64) (h : ℕ) : Option UInt64 := if h < 64 then some (a >>> UInt64.ofNat h) else none

/-- `a << h` -/
def shl? (a : UInt64) (h : ℕ) : Option UInt64 := if h < 64 then some (a <<< UInt64.ofNat h) else none

/-- `a - b` -/
def sub? (a b : UInt64) : Option UInt64 := if b ≤ a then some (a - b) else none

/-- `a + b` -/
def add? (a b : UInt64) : Option UInt64 :=
  if a.toNat + b.toNat < 2 ^ 64 then some (a + b) else none

theorem shr?_of_lt (a : UInt64) {h : ℕ} (hh : h < 64) : shr? a h = some (a >>> UInt64.ofNat h) :=
  if_pos hh

theorem shl?_of_lt (a : UInt64) {h : ℕ} (hh : h < 64) : shl? a h = some (a <<< UInt64.ofNat h) :=
  if_pos hh

theorem sub?_of_le {a b : UInt64} (h : b ≤ a) : sub? a b = some (a - b) := if_pos h

theorem add?_of_lt {a b : UInt64} (h : a.toNat + b.toNat < 2 ^ 64) : add? a b = some (a + b) :=
  if_pos h

/-- A power of two is not 0. -/
theorem one_le_shiftLeft {h : ℕ} (hh : h < 64) : (1 : UInt64) ≤ (1 : UInt64) <<< UInt64.ofNat h := by
  rw [UInt64.le_iff_toNat_le, toNat_one_shiftLeft hh]
  exact Nat.one_le_two_pow

/-- `(1 << h) - 1` -/
def mask? (h : ℕ) : Option UInt64 := do
  let size ← shl? 1 h
  sub? size 1

theorem mask?_of_lt {h : ℕ} (hh : h < 64) :
    mask? h = some ((1 : UInt64) <<< UInt64.ofNat h - 1) := by
  rw [mask?, shl?_of_lt _ hh]
  exact sub?_of_le (one_le_shiftLeft hh)

end Word64
