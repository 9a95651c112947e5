import Mathlib.Algebra.BigOperators.Group.List.Basic
import Mathlib.Algebra.Module.NatInt
import Mathlib.Tactic.Abel

/-!
# Buckets

A sum of small multiples is taken by bucket: the point with multiple `d` goes into bucket `d`, and
the buckets, weighted by their numbers, are summed by adding up the suffix sums.

## Why it saves work

Let each of many points be multiplied by a small number, and the results be added. Multiplying one
by one costs a multiplication for each point. Put into buckets by the number, the points are added
once each, and what remains is the sum of the buckets, each times its number. That sum needs no
multiplication: going down from the last bucket, the running sum holds each bucket as often as its
number says by the time it has been added at every step.

A large number is cut into windows first, and each window has its buckets. `div_pow_window` is the
step from one window to the next.
-/

namespace Buckets

variable {M : Type*} [AddCommMonoid M]

/-- The buckets, the first of which is number `k`, each times its number. -/
def indexSum : ℕ → List M → M
  | _, [] => 0
  | k, b :: bs => k • b + indexSum (k + 1) bs

/-- With the numbers one higher, each bucket counts once more. -/
theorem indexSum_succ (k : ℕ) (bs : List M) : indexSum (k + 1) bs = indexSum k bs + bs.sum := by
  induction bs generalizing k with
  | nil => simp [indexSum]
  | cons b bs ih =>
    rw [indexSum, indexSum, ih, List.sum_cons, succ_nsmul, add_add_add_comm]

/-- Bucket 0 does not count. -/
theorem indexSum_zero_tail (bs : List M) : indexSum 0 bs = indexSum 1 bs.tail := by
  cases bs with
  | nil => rfl
  | cons b bs => rw [indexSum, zero_nsmul, zero_add, List.tail_cons]

/-- Empty buckets count nothing. -/
theorem indexSum_replicate_zero (k n : ℕ) : indexSum k (List.replicate n (0 : M)) = 0 := by
  induction n generalizing k with
  | zero => rfl
  | succ n ih => rw [List.replicate_succ, indexSum, ih, nsmul_zero, add_zero]

/-- A point put into bucket `d` counts `d` times. -/
theorem indexSum_modify (p : M) {d : ℕ} {bs : List M} (hd : d < bs.length) (k : ℕ) :
    indexSum k (bs.modify d (· + p)) = indexSum k bs + (k + d) • p := by
  induction bs generalizing d k with
  | nil => exact absurd hd (Nat.not_lt_zero d)
  | cons b bs ih =>
    cases d with
    | zero =>
      rw [List.modify_zero_cons, indexSum, indexSum, nsmul_add, add_right_comm]
      rfl
    | succ d =>
      rw [List.modify_succ_cons, indexSum, indexSum, ih (Nat.lt_of_succ_lt_succ hd),
        show k + 1 + d = k + (d + 1) by omega, add_assoc]

/-- One round of the suffix sums: the running sum, and the sum of the running sums. -/
def suffixStep (s : M × M) (b : M) : M × M := (s.1 + b, s.2 + (s.1 + b))

/-- From the last bucket down to number 1, the suffix sums add up to the weighted sum. -/
theorem foldl_suffixStep_reverse (bs : List M) :
    bs.reverse.foldl suffixStep (0, 0) = (bs.sum, indexSum 1 bs) := by
  induction bs with
  | nil => rfl
  | cons b bs ih =>
    rw [List.reverse_cons, List.foldl_append, ih, List.foldl_cons, List.foldl_nil, suffixStep,
      List.sum_cons, indexSum, one_nsmul, indexSum_succ 1 bs, add_comm bs.sum b]
    exact congrArg (Prod.mk _) (by abel)

/-- The window at `lo` is what the quotient there gains over the one above. -/
theorem div_pow_window (n lo w : ℕ) :
    n / 2 ^ lo = 2 ^ w * (n / 2 ^ (lo + w)) + n / 2 ^ lo % 2 ^ w := by
  rw [pow_add, ← Nat.div_div_eq_div_mul, Nat.div_add_mod]

end Buckets
