import Mathlib.Data.Nat.Digits.Defs
import Mathlib.Data.Nat.Bitwise
import Mathlib.Data.UInt

/-!
# Numbers in 32-bit limbs

Little-endian lists of `UInt32` limbs, and the loops that work on them through a 64-bit
accumulator: a carry that runs the whole length, a carry that stops where it dies out, a borrow, a
comparison from the top limb down, and a shift right by one bit. Each has one law about values.

## One law for a loop

Arithmetic on long numbers is written as loops over limbs, with an accumulator twice as wide. Each
loop here is a recursive function over the list of limbs, with what it carries as an argument, and
each has one law: an equation between the values of what goes in and what comes out, the carry
included, weighted by its place. The laws are proved by induction on the list and then used whole.
Nothing later looks into a loop.

The side conditions are on the accumulator. A sum of a product of two limbs, a limb and a carry fits
64 bits, and `carry_value` states the bound that each term must satisfy for it. The subtraction
works the other way: the difference wraps on purpose, and its top bit is the borrow (`borrow_step`).

The loop that stops as soon as there is nothing to carry (`propagate`) has the same law as the one
that does not, since from there on it would change nothing.
-/

namespace Limbs

/-- The number with these limbs, least significant first. -/
def value (l : List UInt32) : ℕ := Nat.ofDigits (2 ^ 32) (l.map UInt32.toNat)

/-- The number with these 64-bit terms in 32-bit places. -/
def weigh (l : List UInt64) : ℕ := Nat.ofDigits (2 ^ 32) (l.map UInt64.toNat)

@[simp] theorem value_nil : value [] = 0 := rfl

@[simp] theorem value_cons (x : UInt32) (l : List UInt32) :
    value (x :: l) = x.toNat + 2 ^ 32 * value l := Nat.ofDigits_cons

@[simp] theorem weigh_nil : weigh [] = 0 := rfl

@[simp] theorem weigh_cons (x : UInt64) (l : List UInt64) :
    weigh (x :: l) = x.toNat + 2 ^ 32 * weigh l := Nat.ofDigits_cons

/-- The upper limbs count from where the lower ones end. -/
theorem value_append (l m : List UInt32) :
    value (l ++ m) = value l + (2 ^ 32) ^ l.length * value m := by
  rw [value, List.map_append, Nat.ofDigits_append, List.length_map, value, value]

/-- So many limbs hold less than the power of the base. -/
theorem value_lt (l : List UInt32) : value l < (2 ^ 32) ^ l.length := by
  have h := Nat.ofDigits_lt_base_pow_length (b := 2 ^ 32) (l := l.map UInt32.toNat) (by decide)
    fun x hx => by
      obtain ⟨y, -, rfl⟩ := List.mem_map.mp hx
      exact y.toNat_lt
  rwa [List.length_map] at h

/-- A number has one list of limbs of a given length. -/
theorem value_inj {l m : List UInt32} (hlen : l.length = m.length) (h : value l = value m) :
    l = m := by
  induction l generalizing m with
  | nil => exact (List.length_eq_zero_iff.mp hlen.symm).symm
  | cons x l ih =>
    cases m with
    | nil => cases hlen
    | cons y m =>
      rw [value_cons, value_cons] at h
      have hx := x.toNat_lt
      have hy := y.toNat_lt
      rw [UInt32.toNat_inj.mp (show x.toNat = y.toNat by omega),
        ih (Nat.succ.inj hlen) (by omega)]

theorem value_replicate_zero (n : ℕ) : value (List.replicate n 0) = 0 := by
  induction n with
  | zero => rfl
  | succ n ih => rw [List.replicate_succ, value_cons, ih]; rfl

/-- A bit of the number is that bit of its limb. -/
theorem testBit_value (l : List UInt32) (i : ℕ) :
    (value l).testBit i = (l.getD (i / 32) 0).toNat.testBit (i % 32) := by
  induction l generalizing i with
  | nil => simp
  | cons x l ih =>
    rw [value_cons, Nat.add_comm, Nat.testBit_two_pow_mul_add _ x.toNat_lt]
    split
    · next h => rw [Nat.div_eq_of_lt h, Nat.mod_eq_of_lt h, List.getD_cons_zero]
    · next h =>
      obtain ⟨j, rfl⟩ := Nat.exists_eq_add_of_le (Nat.le_of_not_lt h)
      rw [Nat.add_sub_cancel_left, ih, Nat.add_mod_left, Nat.add_div_left _ (by decide),
        List.getD_cons_succ]

/-! ## The accumulator -/

/-- What a 64-bit accumulator holds is its low limb and what is shifted down. -/
theorem toNat_split (c : UInt64) :
    c.toUInt32.toNat + 2 ^ 32 * (c >>> 32).toNat = c.toNat := by
  have hc := c.toNat_lt
  rw [UInt64.toNat_toUInt32, UInt64.toNat_shiftRight, show (32 : UInt64).toNat % 64 = 32 from rfl,
    Nat.shiftRight_eq_div_pow]
  omega

/-- What is shifted down fits a limb. -/
theorem toNat_shift_lt (c : UInt64) : (c >>> 32).toNat < 2 ^ 32 := by
  have hc := c.toNat_lt
  rw [UInt64.toNat_shiftRight, show (32 : UInt64).toNat % 64 = 32 from rfl,
    Nat.shiftRight_eq_div_pow]
  omega

/-- A sum that fits does not wrap. -/
theorem toNat_add_of_lt {c x : UInt64} (h : c.toNat + x.toNat < 2 ^ 64) :
    (c + x).toNat = c.toNat + x.toNat := by
  rw [UInt64.toNat_add, Nat.mod_eq_of_lt h]

/-! ## Carrying -/

/-- `c += x; r = (uint32_t)c; c >>= 32` over all terms. -/
def carry : UInt64 → List UInt64 → List UInt32 × UInt64
  | c, [] => ([], c)
  | c, x :: xs =>
    let c := c + x
    let rest := carry (c >>> 32) xs
    (c.toUInt32 :: rest.1, rest.2)

@[simp] theorem length_carry (c : UInt64) (xs : List UInt64) :
    (carry c xs).1.length = xs.length := by
  induction xs generalizing c with
  | nil => rfl
  | cons x xs ih => rw [carry, List.length_cons, ih, List.length_cons]

/-- Nothing is lost while no sum leaves 64 bits. -/
theorem carry_value {c : UInt64} {xs : List UInt64} (hc : c.toNat < 2 ^ 32)
    (hxs : ∀ x ∈ xs, x.toNat + 2 ^ 32 ≤ 2 ^ 64) :
    value (carry c xs).1 + (2 ^ 32) ^ xs.length * (carry c xs).2.toNat = c.toNat + weigh xs ∧
      (carry c xs).2.toNat < 2 ^ 32 := by
  induction xs generalizing c with
  | nil => exact ⟨by simp [carry], hc⟩
  | cons x xs ih =>
    have hx := hxs x List.mem_cons_self
    obtain ⟨hval, hlt⟩ := ih (toNat_shift_lt (c + x)) fun y hy => hxs y (List.mem_cons_of_mem _ hy)
    have hsplit := toNat_split (c + x)
    rw [toNat_add_of_lt (by omega)] at hsplit
    refine ⟨?_, hlt⟩
    rw [carry, value_cons, List.length_cons, weigh_cons, pow_succ' ((2 : ℕ) ^ 32)]
    dsimp only
    rw [Nat.mul_assoc]
    omega

/-- The terms of a sum of two numbers. -/
def sums (l m : List UInt32) : List UInt64 :=
  (l.zip m).map fun xy => xy.1.toUInt64 + xy.2.toUInt64

/-- The terms of a number times a limb. -/
def products (k : UInt32) (l : List UInt32) : List UInt64 := l.map fun x => x.toUInt64 * k.toUInt64

@[simp] theorem length_sums (l m : List UInt32) : (sums l m).length = min l.length m.length := by
  rw [sums, List.length_map, List.length_zip]

@[simp] theorem length_products (k : UInt32) (l : List UInt32) :
    (products k l).length = l.length := List.length_map _

/-- Two limbs are added in 64 bits. -/
theorem toNat_sum (x y : UInt32) : (x.toUInt64 + y.toUInt64).toNat = x.toNat + y.toNat := by
  have hx := x.toNat_lt
  have hy := y.toNat_lt
  rw [UInt64.toNat_add, UInt32.toNat_toUInt64, UInt32.toNat_toUInt64]
  omega

/-- The largest product of two limbs. -/
theorem mul_toNat_le (x k : UInt32) : x.toNat * k.toNat ≤ (2 ^ 32 - 1) * (2 ^ 32 - 1) :=
  Nat.mul_le_mul (Nat.le_pred_of_lt x.toNat_lt) (Nat.le_pred_of_lt k.toNat_lt)

/-- Which fits 64 bits. -/
theorem toNat_product (x k : UInt32) : (x.toUInt64 * k.toUInt64).toNat = x.toNat * k.toNat := by
  have h := mul_toNat_le x k
  rw [UInt64.toNat_mul, UInt32.toNat_toUInt64, UInt32.toNat_toUInt64, Nat.mod_eq_of_lt (by omega)]

/-- The terms of a sum weigh the sum. -/
theorem weigh_sums {l m : List UInt32} (h : l.length = m.length) :
    weigh (sums l m) = value l + value m := by
  induction l generalizing m with
  | nil =>
    obtain rfl := List.length_eq_zero_iff.mp h.symm
    rfl
  | cons x l ih =>
    cases m with
    | nil => cases h
    | cons y m =>
      have hrest := ih (Nat.succ.inj h)
      rw [sums] at hrest ⊢
      rw [List.zip_cons_cons, List.map_cons, weigh_cons, hrest, toNat_sum, value_cons, value_cons,
        Nat.mul_add, Nat.add_add_add_comm]

/-- Those of a product weigh the product. -/
theorem weigh_products (k : UInt32) (l : List UInt32) :
    weigh (products k l) = value l * k.toNat := by
  induction l with
  | nil => exact (Nat.zero_mul _).symm
  | cons x l ih =>
    rw [products] at ih ⊢
    rw [List.map_cons, weigh_cons, ih, toNat_product, value_cons, Nat.add_mul, Nat.mul_assoc]

/-- A sum of two numbers of as many limbs, with its carry. -/
theorem carry_sums {l m : List UInt32} (h : l.length = m.length) :
    value (carry 0 (sums l m)).1 + (2 ^ 32) ^ l.length * (carry 0 (sums l m)).2.toNat =
        value l + value m ∧
      (carry 0 (sums l m)).2.toNat < 2 ^ 32 := by
  have hterm : ∀ x ∈ sums l m, x.toNat + 2 ^ 32 ≤ 2 ^ 64 := by
    intro x hx
    obtain ⟨ab, -, rfl⟩ := List.mem_map.mp hx
    have ha := ab.1.toNat_lt
    have hb := ab.2.toNat_lt
    rw [toNat_sum]
    omega
  obtain ⟨hval, hlt⟩ := carry_value (c := 0) (by decide) hterm
  rw [weigh_sums h, length_sums, ← h, Nat.min_self] at hval
  exact ⟨hval.trans (Nat.zero_add _), hlt⟩

/-- A number times a limb, with its carry. -/
theorem carry_products (k : UInt32) (l : List UInt32) :
    value (carry 0 (products k l)).1 + (2 ^ 32) ^ l.length * (carry 0 (products k l)).2.toNat =
        value l * k.toNat ∧
      (carry 0 (products k l)).2.toNat < 2 ^ 32 := by
  have hterm : ∀ x ∈ products k l, x.toNat + 2 ^ 32 ≤ 2 ^ 64 := by
    intro x hx
    obtain ⟨a, -, rfl⟩ := List.mem_map.mp hx
    have h := mul_toNat_le a k
    rw [toNat_product]
    omega
  obtain ⟨hval, hlt⟩ := carry_value (c := 0) (by decide) hterm
  rw [weigh_products, length_products] at hval
  exact ⟨hval.trans (Nat.zero_add _), hlt⟩

/-- `acc += r; r = (uint32_t)acc; acc >>= 32`, for as long as there is something to add. -/
def propagate : UInt64 → List UInt32 → List UInt32 × UInt64
  | acc, [] => ([], acc)
  | acc, r :: rs =>
    if acc = 0 then (r :: rs, acc)
    else
      let acc := acc + r.toUInt64
      let rest := propagate (acc >>> 32) rs
      (acc.toUInt32 :: rest.1, rest.2)

@[simp] theorem length_propagate (acc : UInt64) (rs : List UInt32) :
    (propagate acc rs).1.length = rs.length := by
  induction rs generalizing acc with
  | nil => rfl
  | cons r rs ih =>
    rw [propagate]
    split
    · rfl
    · rw [List.length_cons, ih, List.length_cons]

/-- What is added at the bottom, with what runs out at the top. -/
theorem propagate_value {acc : UInt64} (rs : List UInt32) (hacc : acc.toNat < 2 ^ 32) :
    value (propagate acc rs).1 + (2 ^ 32) ^ rs.length * (propagate acc rs).2.toNat =
        acc.toNat + value rs ∧
      (propagate acc rs).2.toNat < 2 ^ 32 := by
  induction rs generalizing acc with
  | nil => exact ⟨by simp [propagate], hacc⟩
  | cons r rs ih =>
    rw [propagate]
    split
    · next h0 =>
      subst h0
      exact ⟨by simp, hacc⟩
    · have hr := r.toNat_lt
      obtain ⟨hval, hlt⟩ := ih (toNat_shift_lt (acc + r.toUInt64))
      have hsplit := toNat_split (acc + r.toUInt64)
      rw [toNat_add_of_lt (by rw [UInt32.toNat_toUInt64]; omega), UInt32.toNat_toUInt64] at hsplit
      refine ⟨?_, hlt⟩
      rw [value_cons, List.length_cons, value_cons, pow_succ' ((2 : ℕ) ^ 32)]
      dsimp only
      rw [Nat.mul_assoc]
      omega

/-! ## Borrowing -/

/-- `x = a - b - borrow; r = (uint32_t)x; borrow = (x >> 63) & 1`. -/
def subtract : UInt64 → List UInt32 → List UInt32 → List UInt32 × UInt64
  | b, x :: xs, y :: ys =>
    let d := x.toUInt64 - y.toUInt64 - b
    let rest := subtract ((d >>> 63) &&& 1) xs ys
    (d.toUInt32 :: rest.1, rest.2)
  | b, _, _ => ([], b)

theorem length_subtract (b : UInt64) {xs ys : List UInt32} (h : xs.length = ys.length) :
    (subtract b xs ys).1.length = xs.length := by
  induction xs generalizing b ys with
  | nil => rfl
  | cons x xs ih =>
    cases ys with
    | nil => cases h
    | cons y ys => rw [subtract, List.length_cons, ih _ (Nat.succ.inj h), List.length_cons]

/-- One limb: the top bit of the difference says that it went below zero. -/
theorem borrow_step (x y : UInt32) {b : UInt64} (hb : b.toNat ≤ 1) :
    let d := x.toUInt64 - y.toUInt64 - b
    d.toUInt32.toNat + y.toNat + b.toNat = x.toNat + 2 ^ 32 * ((d >>> 63) &&& 1).toNat ∧
      ((d >>> 63) &&& 1).toNat ≤ 1 := by
  have hx := x.toNat_lt
  have hy := y.toNat_lt
  intro d
  have hd : d.toNat = (2 ^ 64 - b.toNat + (2 ^ 64 - y.toNat + x.toNat) % 2 ^ 64) % 2 ^ 64 := by
    rw [UInt64.toNat_sub, UInt64.toNat_sub, UInt32.toNat_toUInt64, UInt32.toNat_toUInt64]
  rw [UInt64.toNat_and, UInt64.toNat_shiftRight, UInt64.toNat_toUInt32,
    show (63 : UInt64).toNat % 64 = 63 from rfl, show (1 : UInt64).toNat = 1 from rfl,
    Nat.and_one_is_mod, Nat.shiftRight_eq_div_pow]
  omega

/-- The difference, with the borrow that is left. -/
theorem subtract_value {b : UInt64} {xs ys : List UInt32} (hlen : xs.length = ys.length)
    (hb : b.toNat ≤ 1) :
    value (subtract b xs ys).1 + value ys + b.toNat =
        value xs + (2 ^ 32) ^ xs.length * (subtract b xs ys).2.toNat ∧
      (subtract b xs ys).2.toNat ≤ 1 := by
  induction xs generalizing b ys with
  | nil =>
    obtain rfl := List.length_eq_zero_iff.mp hlen.symm
    exact ⟨by simp [subtract], hb⟩
  | cons x xs ih =>
    cases ys with
    | nil => cases hlen
    | cons y ys =>
      obtain ⟨hstep, hb'⟩ := borrow_step x y hb
      obtain ⟨hval, hlt⟩ := ih (Nat.succ.inj hlen) hb'
      refine ⟨?_, hlt⟩
      rw [subtract, value_cons, value_cons, value_cons, List.length_cons, pow_succ' ((2 : ℕ) ^ 32)]
      dsimp only at hstep ⊢
      rw [Nat.mul_assoc]
      omega

/-- A difference that is not negative is exact. -/
theorem subtract_exact {xs ys : List UInt32} (hlen : xs.length = ys.length)
    (h : value ys ≤ value xs) : value (subtract 0 xs ys).1 = value xs - value ys := by
  obtain ⟨hval, hlt⟩ := subtract_value (b := 0) hlen (by decide)
  have hbound := value_lt (subtract 0 xs ys).1
  rw [length_subtract 0 hlen] at hbound
  rw [show (0 : UInt64).toNat = 0 from rfl] at hval
  -- a borrow out of the top would leave more than the limbs hold
  have hnone : (subtract 0 xs ys).2.toNat = 0 := by
    by_contra hne
    rw [show (subtract 0 xs ys).2.toNat = 1 by omega, Nat.mul_one] at hval
    omega
  rw [hnone, Nat.mul_zero] at hval
  omega

/-! ## Comparing -/

/-- The loop from the top limb down; both lists most significant first. -/
def geDown : List UInt32 → List UInt32 → Bool
  | x :: xs, y :: ys => if x ≠ y then y < x else geDown xs ys
  | _, _ => true

/-- It compares the numbers. -/
theorem geDown_reverse {xs ys : List UInt32} (hlen : xs.length = ys.length) :
    geDown xs ys = decide (value ys.reverse ≤ value xs.reverse) := by
  induction xs generalizing ys with
  | nil =>
    obtain rfl := List.length_eq_zero_iff.mp hlen.symm
    rfl
  | cons x xs ih =>
    cases ys with
    | nil => cases hlen
    | cons y ys =>
      have hlen' := Nat.succ.inj hlen
      have hxs := value_lt xs.reverse
      have hys := value_lt ys.reverse
      rw [List.length_reverse] at hxs
      rw [List.length_reverse, ← hlen'] at hys
      have hone (z : UInt32) : value [z] = z.toNat := by simp
      rw [geDown, ih hlen', List.reverse_cons, List.reverse_cons, value_append, value_append, hone,
        hone, List.length_reverse, List.length_reverse, ← hlen']
      generalize (2 ^ 32) ^ xs.length = w at *
      split
      · next hne =>
        have hne' : x.toNat ≠ y.toNat := fun h => hne (UInt32.toNat_inj.mp h)
        rw [decide_eq_decide, UInt32.lt_iff_toNat_lt]
        constructor
        · intro hlt
          have : w * (y.toNat + 1) ≤ w * x.toNat := Nat.mul_le_mul_left _ hlt
          rw [Nat.mul_succ] at this
          omega
        · intro hle
          by_contra hlt
          have : w * (x.toNat + 1) ≤ w * y.toNat := Nat.mul_le_mul_left _ (by omega)
          rw [Nat.mul_succ] at this
          omega
      · next heq =>
        rw [not_ne_iff.mp heq, decide_eq_decide]
        omega

/-! ## Halving -/

/-- Every limb takes the low bit of the next, the top one that of `c`. -/
def shiftRightOne : List UInt32 → UInt32 → List UInt32
  | [], _ => []
  | [x], c => [(x >>> 1) ||| (c <<< 31)]
  | x :: y :: l, c => ((x >>> 1) ||| (y <<< 31)) :: shiftRightOne (y :: l) c

@[simp] theorem length_shiftRightOne (l : List UInt32) (c : UInt32) :
    (shiftRightOne l c).length = l.length := by
  induction l with
  | nil => rfl
  | cons x l ih =>
    cases l with
    | nil => rfl
    | cons y l =>
      rw [shiftRightOne, List.length_cons, ih]
      rfl

/-- The two halves of a limb do not overlap. -/
theorem toNat_shift_or (x y : UInt32) :
    ((x >>> 1) ||| (y <<< 31)).toNat = x.toNat / 2 + 2 ^ 31 * (y.toNat % 2) := by
  have hx := x.toNat_lt
  have hlow : x.toNat / 2 < 2 ^ 31 := by omega
  rw [UInt32.toNat_or, UInt32.toNat_shiftRight, UInt32.toNat_shiftLeft,
    show (1 : UInt32).toNat % 32 = 1 from rfl, show (31 : UInt32).toNat % 32 = 31 from rfl,
    Nat.shiftRight_eq_div_pow, pow_one, Nat.shiftLeft_eq,
    show y.toNat * 2 ^ 31 % 2 ^ 32 = 2 ^ 31 * (y.toNat % 2) by omega, Nat.or_comm,
    ← Nat.two_pow_add_eq_or_of_lt hlow, Nat.add_comm]

/-- Half of the number, with the bit that comes in at the top. -/
theorem shiftRightOne_value {l : List UInt32} (hl : l ≠ []) (c : UInt32) :
    2 * value (shiftRightOne l c) + value l % 2 =
      value l + (2 ^ 32) ^ l.length * (c.toNat % 2) := by
  induction l with
  | nil => exact absurd rfl hl
  | cons x l ih =>
    cases l with
    | nil =>
      rw [shiftRightOne, value_cons, value_cons, toNat_shift_or, List.length_singleton, pow_one,
        value_nil]
      omega
    | cons y l =>
      have hrest := ih (List.cons_ne_nil y l)
      have hy : y.toNat % 2 = value (y :: l) % 2 := by
        rw [value_cons]
        omega
      rw [shiftRightOne, value_cons, value_cons x, toNat_shift_or, List.length_cons (a := x),
        pow_succ' ((2 : ℕ) ^ 32), Nat.mul_assoc]
      omega

end Limbs
