import Hazync.Guest.FieldPrime
import Mathlib.NumberTheory.LegendreSymbol.Basic

/-!
# The `lift_x` hint (`patches/0013-lift-x-via-witness-hint.patch`, `liftx_hint.rs`)

`secp256k1_ge_set_xo_var` as libsecp has it, and as the patch makes it: a root of `x^3 + 7` is
looked up in a table the host supplies, checked, and computed only when the check fails. libsecp is
not part of the repository, so its field is a parameter (`Libsecp`), and that it computes in GF(p)
is the hypothesis (`Libsecp.Lawful`) the result rests on.

## Why any table will do

To lift an `x` to the curve one needs a square root, which in the guest is dear. The host knows the
roots, so it may supply them, and the guest only squares and compares. The danger of such a hint is
a verdict that depends on it. There is none, for a root is a root: of the two roots of a number one
is odd and one is even, and the function takes the one of the parity that it was asked for. So
whichever root the table has, the result is the same point (`withParity_unique`); and where the
table has no root, the entry fails the check and the function does what it always did.

The point is the same as an element of the field, which is what `val` is for: the limbs of the two
may differ.
-/

namespace Hazync
namespace Guest
namespace LiftX

open ByteStrings
open Bigint2 (fieldPrime fieldPrime_prime ofB32)

/-- The field operations `secp256k1_ge_set_xo_var` calls, on representations of field elements. -/
structure Libsecp (Fe : Type) where
  feSqr : Fe → Fe
  feMul : Fe → Fe → Fe
  /-- `secp256k1_fe_add_int` of `SECP256K1_B`. -/
  feAddB : Fe → Fe
  /-- `secp256k1_fe_sqrt`: what it writes, and what it returns. -/
  feSqrt : Fe → Fe × Bool
  feNormalizeVar : Fe → Fe
  feGetB32 : Fe → Bytes32
  /-- `secp256k1_fe_set_b32_limit`: `none` is its 0. -/
  feSetB32Limit : Bytes32 → Option Fe
  feEqual : Fe → Fe → Bool
  feIsOdd : Fe → Bool
  /-- `secp256k1_fe_negate` at magnitude 1. -/
  feNegate : Fe → Fe

/-- `secp256k1_ge`. -/
structure Ge (Fe : Type) where
  x : Fe
  y : Fe
  infinity : Bool

/-! ## The hint table -/

/-- `install`: the table, sorted by `x`. Entries of one `x` come in no particular order. -/
def install (pairs : List (Bytes32 × Bytes32)) : List (Bytes32 × Bytes32) :=
  pairs.mergeSort fun a b => a.1.toList ≤ b.1.toList

/-- `hazync_lift_x_hint`. The binary search finds an entry of `xb` when there is one; which of
    several it finds is `pick`'s to say. -/
def hazyncLiftXHint (pick : ℕ) (table : List (Bytes32 × Bytes32)) (xb : Bytes32) :
    Option Bytes32 :=
  let found := table.filter fun probe => probe.1 = xb
  found[pick % found.length]?.map Prod.snd

/-! ## Setting a point from its `x` -/

section Code

variable {Fe : Type} (L : Libsecp Fe)

/-- `x^3 + B`, as the function computes it. -/
def curveRhs (x : Fe) : Fe :=
  let x2 := L.feSqr x
  let x3 := L.feMul x x2
  L.feAddB x3

/-- The end of the function: the root is normalised and takes the parity asked for. -/
def withParity (y : Fe) (odd : Bool) : Fe :=
  let y := L.feNormalizeVar y
  if L.feIsOdd y ≠ odd then L.feNegate y else y

/-- The point of a root, and the flag that came with it. -/
def ofRoot (x : Fe) (odd : Bool) (root : Fe × Bool) : Ge Fe × Bool :=
  (⟨x, withParity L root.1 odd, false⟩, root.2)

/-- `secp256k1_ge_set_xo_var` without the patch. -/
def geSetXoVar (x : Fe) (odd : Bool) : Ge Fe × Bool :=
  let x3 := curveRhs L x
  ofRoot L x odd (L.feSqrt x3)

/-- The block under `HAZYNC_LIFTX_HINT`: the hinted root, if it is one. -/
def hintedRoot (pick : ℕ) (pairs : List (Bytes32 × Bytes32)) (x x3 : Fe) : Option Fe := do
  let xn := L.feNormalizeVar x
  let bx := L.feGetB32 xn
  let byt ← hazyncLiftXHint pick (install pairs) bx
  let yh ← L.feSetB32Limit byt
  let y2 := L.feSqr yh
  let t := L.feNormalizeVar x3
  let y2 := L.feNormalizeVar y2
  if L.feEqual y2 t then some yh else none

/-- `secp256k1_ge_set_xo_var` with the patch. -/
def geSetXoVarHinted (pick : ℕ) (pairs : List (Bytes32 × Bytes32)) (x : Fe) (odd : Bool) :
    Ge Fe × Bool :=
  let x3 := curveRhs L x
  match hintedRoot L pick pairs x x3 with
  | some yh => ofRoot L x odd (yh, true)
  | none => ofRoot L x odd (L.feSqrt x3)

end Code

/-! ## What is asked of libsecp -/

/-- The field computes: every representation has a value in GF(p), the operations are those of the
    values, and the tests on normalised representations are those of the canonical numbers. -/
structure Libsecp.Lawful {Fe : Type} (L : Libsecp Fe) {p : ℕ} (val : Fe → ZMod p) : Prop where
  sqr : ∀ a, val (L.feSqr a) = val a ^ 2
  normalize : ∀ a, val (L.feNormalizeVar a) = val a
  negate : ∀ a, val (L.feNegate a) = -val a
  isOdd : ∀ a, L.feIsOdd (L.feNormalizeVar a) = decide ((val a).val % 2 = 1)
  equal : ∀ a b, L.feEqual (L.feNormalizeVar a) (L.feNormalizeVar b) = decide (val a = val b)
  /-- `fe_sqrt` returns 1 exactly for the squares, and then writes a root. -/
  sqrt_ret : ∀ a, (L.feSqrt a).2 = true ↔ IsSquare (val a)
  sqrt_root : ∀ a, (L.feSqrt a).2 = true → val (L.feSqrt a).1 ^ 2 = val a

/-! ## A root and a parity are one element -/

section Parity

variable {p : ℕ} [Fact p.Prime]

/-- Of the two roots of a number that is not 0, one is odd. -/
theorem parity_neg (hp : p % 2 = 1) {y : ZMod p} (hy : y ≠ 0) : (-y).val % 2 ≠ y.val % 2 := by
  have hlt := ZMod.val_lt y
  rw [ZMod.neg_val, if_neg hy]
  omega

variable {Fe : Type} {L : Libsecp Fe} {val : Fe → ZMod p}

/-- The value with the parity that was asked for. -/
theorem val_withParity (hL : L.Lawful val) (y : Fe) (odd : Bool) :
    val (withParity L y odd) = if decide ((val y).val % 2 = 1) ≠ odd then -val y else val y := by
  unfold withParity
  dsimp only
  rw [hL.isOdd]
  split
  · rw [hL.negate, hL.normalize]
  · rw [hL.normalize]

/-- Two roots of one number come out as the same element. -/
theorem withParity_unique (hp : p % 2 = 1) (hL : L.Lawful val) {y z : Fe}
    (h : val y ^ 2 = val z ^ 2) (odd : Bool) : val (withParity L y odd) = val (withParity L z odd) := by
  rw [val_withParity hL, val_withParity hL]
  rcases sq_eq_sq_iff_eq_or_eq_neg.mp h with h | h
  · rw [h]
  · rw [h]
    by_cases hz : val z = 0
    · simp only [hz, neg_zero]
    · have hpar := parity_neg hp hz
      rw [neg_neg]
      cases odd <;> split <;> split <;> simp_all

/-- What passes the check is a root. -/
theorem hintedRoot_sq (hL : L.Lawful val) {pick : ℕ} {pairs : List (Bytes32 × Bytes32)}
    {x x3 yh : Fe} (h : hintedRoot L pick pairs x x3 = some yh) : val yh ^ 2 = val x3 := by
  simp only [hintedRoot, Option.bind_eq_bind, Option.bind_eq_some_iff] at h
  obtain ⟨byt, -, y, -, hcheck⟩ := h
  split at hcheck
  · next heq =>
    obtain rfl := Option.some.inj hcheck
    rw [hL.equal, decide_eq_true_eq, hL.sqr] at heq
    exact heq
  · cases hcheck

end Parity

instance fieldPrime_fact : Fact fieldPrime.Prime := ⟨fieldPrime_prime⟩

variable {Fe : Type} {L : Libsecp Fe} {val : Fe → ZMod fieldPrime}

/-- **The hint cannot change a verdict.** Whatever the table holds and whichever entry the search
finds, the patched function returns the flag and the point that libsecp's own does; so two tables
give the same. -/
theorem geSetXoVarHinted_eq (hL : L.Lawful val) (pick pick' : ℕ)
    (pairs pairs' : List (Bytes32 × Bytes32)) (x : Fe) (odd : Bool) :
    ((geSetXoVarHinted L pick pairs x odd).2 = (geSetXoVar L x odd).2 ∧
      (geSetXoVarHinted L pick pairs x odd).1.x = (geSetXoVar L x odd).1.x ∧
      val (geSetXoVarHinted L pick pairs x odd).1.y = val (geSetXoVar L x odd).1.y ∧
      (geSetXoVarHinted L pick pairs x odd).1.infinity = (geSetXoVar L x odd).1.infinity) ∧
    ((geSetXoVarHinted L pick pairs x odd).2 = (geSetXoVarHinted L pick' pairs' x odd).2 ∧
      (geSetXoVarHinted L pick pairs x odd).1.x = (geSetXoVarHinted L pick' pairs' x odd).1.x ∧
      val (geSetXoVarHinted L pick pairs x odd).1.y =
        val (geSetXoVarHinted L pick' pairs' x odd).1.y ∧
      (geSetXoVarHinted L pick pairs x odd).1.infinity =
        (geSetXoVarHinted L pick' pairs' x odd).1.infinity) := by
  have key (pick : ℕ) (pairs : List (Bytes32 × Bytes32)) :
      (geSetXoVarHinted L pick pairs x odd).2 = (geSetXoVar L x odd).2 ∧
      (geSetXoVarHinted L pick pairs x odd).1.x = (geSetXoVar L x odd).1.x ∧
      val (geSetXoVarHinted L pick pairs x odd).1.y = val (geSetXoVar L x odd).1.y ∧
      (geSetXoVarHinted L pick pairs x odd).1.infinity = (geSetXoVar L x odd).1.infinity := by
    rw [geSetXoVarHinted]
    cases hroot : hintedRoot L pick pairs x (curveRhs L x) with
    | none => exact ⟨rfl, rfl, rfl, rfl⟩
    | some yh =>
      -- a checked hint shows that `x^3 + B` is a square, so the square root finds a root too
      have hsq := hintedRoot_sq hL hroot
      have hret : (L.feSqrt (curveRhs L x)).2 = true :=
        (hL.sqrt_ret _).mpr ((isSquare_iff_exists_sq _).mpr ⟨val yh, hsq.symm⟩)
      exact ⟨hret.symm, rfl,
        withParity_unique (by decide) hL (hsq.trans (hL.sqrt_root _ hret).symm) odd, rfl⟩
  obtain ⟨h1, h2, h3, h4⟩ := key pick pairs
  obtain ⟨h1', h2', h3', h4'⟩ := key pick' pairs'
  exact ⟨⟨h1, h2, h3, h4⟩, h1.trans h1'.symm, h2.trans h2'.symm, h3.trans h3'.symm,
    h4.trans h4'.symm⟩

/-! ## A field that computes -/

/-- The canonical numbers themselves, with libsecp's square root `a^((p+1)/4)`. -/
def reference (p : ℕ) : Libsecp (ZMod p) where
  feSqr a := a ^ 2
  feMul a b := a * b
  feAddB a := a + 7
  feSqrt a := (a ^ ((p + 1) / 4), decide ((a ^ ((p + 1) / 4)) ^ 2 = a))
  feNormalizeVar a := a
  feGetB32 a := List.Vector.ofFn fun k => UInt8.ofNat (a.val >>> (8 * (31 - k.val)))
  feSetB32Limit b := if ofB32 b < p then some (ofB32 b : ZMod p) else none
  feEqual a b := decide (a = b)
  feIsOdd a := decide (a.val % 2 = 1)
  feNegate a := -a

/-- For a prime that is 3 modulo 4 the power is a root of every square. -/
theorem pow_sq_eq_iff {p : ℕ} [Fact p.Prime] (hp : p % 4 = 3) (a : ZMod p) :
    (a ^ ((p + 1) / 4)) ^ 2 = a ↔ IsSquare a := by
  constructor
  · intro h
    exact (isSquare_iff_exists_sq _).mpr ⟨_, h.symm⟩
  · rintro ⟨z, rfl⟩
    by_cases hz : z = 0
    · rw [hz, mul_zero, zero_pow (by omega), zero_pow two_ne_zero]
    · have hexp : 2 * ((p + 1) / 4 * 2) = p - 1 + 2 := by omega
      rw [← sq, ← pow_mul, ← pow_mul, hexp, pow_add, ZMod.pow_card_sub_one_eq_one hz, one_mul]

/-- The field of canonical numbers is one that computes. -/
theorem reference_lawful {p : ℕ} [Fact p.Prime] (hp : p % 4 = 3) :
    (reference p).Lawful (id : ZMod p → ZMod p) where
  sqr _ := rfl
  normalize _ := rfl
  negate _ := rfl
  isOdd _ := rfl
  equal _ _ := rfl
  sqrt_ret a := decide_eq_true_iff.trans (pow_sq_eq_iff hp a)
  sqrt_root _ h := of_decide_eq_true h

/-- The table has one entry, for `x = 1`. -/
def tableOfOne (yb : Bytes32) : List (Bytes32 × Bytes32) :=
  [((reference fieldPrime).feGetB32 1, yb)]

/-- What the check of the one entry comes to. -/
theorem hintedRoot_tableOfOne (pick : ℕ) (yb : Bytes32) :
    hintedRoot (reference fieldPrime) pick (tableOfOne yb) 1 (curveRhs (reference fieldPrime) 1) =
      ((reference fieldPrime).feSetB32Limit yb).bind fun y =>
        if (reference fieldPrime).feEqual (y ^ 2) 8 then some y else none := by
  have hrhs : curveRhs (reference fieldPrime) 1 = 8 := by decide +kernel
  have hfound : hazyncLiftXHint pick (install (tableOfOne yb)) ((reference fieldPrime).feGetB32 1) =
      some yb := by
    rw [install, tableOfOne, List.mergeSort_singleton, hazyncLiftXHint]
    simp [Nat.mod_one]
  rw [hintedRoot, hrhs]
  change (hazyncLiftXHint pick (install (tableOfOne yb)) ((reference fieldPrime).feGetB32 1)).bind _ = _
  rw [hfound]
  rfl

/-- A root of `1^3 + 7`. -/
def rootOfEight : ZMod fieldPrime :=
  0x4218f20ae6c646b363db68605822fb14264ca8d2587fdd6fbc750d587e76a7ee

/-- `x = 1`: where the table has a root it is taken, where it has another number that is refused, and
    both give the point that the square root gives. -/
theorem geSetXoVarHinted_eq_reference :
    let right := tableOfOne ((reference fieldPrime).feGetB32 rootOfEight)
    let wrong := tableOfOne (.replicate 32 5)
    let rhs := curveRhs (reference fieldPrime) 1
    (hintedRoot (reference fieldPrime) 0 right 1 rhs = some rootOfEight ∧
      hintedRoot (reference fieldPrime) 0 wrong 1 rhs = none) ∧
    (geSetXoVarHinted (reference fieldPrime) 0 right 1 true).1.y =
      (geSetXoVar (reference fieldPrime) 1 true).1.y ∧
    (geSetXoVarHinted (reference fieldPrime) 0 right 1 true).1.y =
      (geSetXoVarHinted (reference fieldPrime) 0 wrong 1 true).1.y := by
  intro right wrong rhs
  obtain ⟨⟨-, -, hy, -⟩, -, -, hsame, -⟩ :=
    geSetXoVarHinted_eq (reference_lawful (by decide)) 0 0 right wrong 1 true
  rw [id_eq, id_eq] at hy hsame
  refine ⟨⟨?_, ?_⟩, hy, hsame⟩
  · rw [hintedRoot_tableOfOne]
    decide +kernel
  · rw [hintedRoot_tableOfOne]
    decide +kernel

end LiftX
end Guest
end Hazync
