import Hazync.Lib.Buckets
import Hazync.Lib.ByteStrings
import Mathlib.Data.Nat.Bitwise
import Mathlib.Algebra.GroupWithZero.Nat

/-!
# Multi-scalar multiplication (`prover/methods/guest/src/msm.rs`)

Pippenger's bucket method and the double-and-add it is checked against, over any abelian group:
`Affine` is outside the repository, and all the code asks of it is that `add_into` and `double`
are the group law. A scalar is 256 bits, read as 32 big-endian bytes.

## Windows

The bucket method cuts each scalar into digits of a few bits, the highest window first. For each
window the points are added into buckets by their digit, and the buckets are summed with their
numbers as weights by adding running sums up; between two windows the accumulator is doubled once
for each bit. If the window does not divide 256, the highest one reaches past the end of the scalar
and reads zeros there.

The invariant of the loop is that above the present window the accumulator holds each point times
what is left of its scalar when the lower bits are cut off (`msmLoop_eq`). That the weighted sum of
the buckets is what the running sums make is a fact about lists in any abelian group, in
`Lib/Buckets`.
-/

namespace Hazync
namespace Guest
namespace Msm

open ByteStrings

/-- `write_be_bytes` of a scalar. -/
def writeBeBytes (s : BitVec 256) : Bytes32 :=
  List.Vector.ofFn fun k => UInt8.ofNat (s.toNat >>> (8 * (31 - k.val)))

/-- Bit `i` of a scalar, 0 the least significant. Both callers stay below 256, where the index does
    not underflow. -/
def bitBe (b : Bytes32) (i : ℕ) : UInt32 :=
  ((b.get ⟨31 - (i >>> 3), by omega⟩ >>> UInt8.ofNat (i % 8)) &&& 1).toUInt32

/-- The `window`-bit digit from bit `lo` on. -/
def digit (b : Bytes32) (lo window : ℕ) : ℕ :=
  (List.range window).foldl
    (fun d k => if lo + k < 256 then d ||| (bitBe b (lo + k)).toNat <<< k else d) 0

section Group

variable {M : Type*} [AddCommGroup M]

/-- `Affine::double`. -/
def double (p : M) : M := p + p

/-- One point of one window: added where its digit says, left out at 0. -/
def fillBucket (lo window : ℕ) (buckets : List M) (pb : M × Bytes32) : List M :=
  let d := digit pb.2 lo window
  if d ≠ 0 then buckets.modify d (· + pb.1) else buckets

/-- The points of one window in their buckets. -/
def fillBuckets (points : List M) (bytes : List Bytes32) (lo window : ℕ) : List M :=
  (points.zip bytes).foldl (fillBucket lo window) (List.replicate (2 ^ window) 0)

/-- `total`: the running suffix sums added up, bucket `nbuckets - 1` first and bucket 1 last. -/
def bucketTotal (buckets : List M) (window : ℕ) : M :=
  ((List.range' 1 (2 ^ window - 1)).reverse.foldl
    (fun s j => Buckets.suffixStep s (buckets.getD j 0)) (0, 0)).2

/-- The loop, at `lo = k * window`. -/
def msmLoop (points : List M) (bytes : List Bytes32) (window : ℕ) :
    (k : ℕ) → (first : Bool) → M → M
  | k, first, acc =>
    let lo := k * window
    let acc := if first then acc else (List.range window).foldl (fun acc _ => double acc) acc
    let acc := acc + bucketTotal (fillBuckets points bytes lo window) window
    match k with
    | 0 => acc
    | k + 1 => msmLoop points bytes window k false acc

/-- `msm`; `none` is a failed assertion. -/
def msm (points : List M) (scalars : List (BitVec 256)) (window : ℕ) : Option M :=
  if points.length ≠ scalars.length then none
  else if ¬(1 ≤ window ∧ window ≤ 16) then none
  else if points.isEmpty then some 0
  else some (msmLoop points (scalars.map writeBeBytes) window (256 / window) true 0)

/-- One bit of double-and-add. -/
def doubleAndAdd (p : M) (b : Bytes32) (term : M) (i : ℕ) : M :=
  let term := double term
  if bitBe b i = 1 then term + p else term

/-- `msm_reference`: double-and-add, one point at a time. -/
def msmReference (points : List M) (scalars : List (BitVec 256)) : M :=
  (points.zip scalars).foldl
    (fun acc ps =>
      let b := writeBeBytes ps.2
      acc + (List.range 256).reverse.foldl (doubleAndAdd ps.1 b) 0)
    0

end Group

/-! ## Bits and digits -/

/-- A bit of the bytes is that bit of the scalar. -/
theorem toNat_bitBe (s : BitVec 256) {i : ℕ} (hi : i < 256) :
    (bitBe (writeBeBytes s) i).toNat = (s.toNat.testBit i).toNat := by
  have hbyte : 8 * (31 - (31 - i >>> 3)) + i % 8 = i := by
    rw [Nat.shiftRight_eq_div_pow]
    omega
  have hget : ((writeBeBytes s).get ⟨31 - (i >>> 3), by omega⟩).toNat =
      (s.toNat >>> (8 * (31 - (31 - i >>> 3)))) % 2 ^ 8 := by
    rw [writeBeBytes, List.Vector.get_ofFn, UInt8.toNat_ofNat']
  rw [bitBe, UInt8.toNat_toUInt32, UInt8.toNat_and, UInt8.toNat_shiftRight, hget,
    UInt8.toNat_ofNat', Nat.mod_eq_of_lt (show i % 8 < 2 ^ 8 by omega), Nat.mod_mod]
  rw [UInt8.toNat_one, Nat.and_one_is_mod, Nat.shiftRight_eq_div_pow, ← Nat.toNat_testBit,
    Nat.testBit_mod_two_pow, Nat.testBit_shiftRight, hbyte,
    decide_eq_true (Nat.mod_lt i (by decide)), Bool.true_and]

/-- A digit is the bits of the scalar in its window; past the top they are zeros. -/
theorem digit_eq (s : BitVec 256) (lo window : ℕ) :
    digit (writeBeBytes s) lo window = s.toNat / 2 ^ lo % 2 ^ window := by
  induction window with
  | zero => rw [pow_zero, Nat.mod_one]; rfl
  | succ n ih =>
    have hlt : s.toNat / 2 ^ lo % 2 ^ n < 2 ^ n := Nat.mod_lt _ (Nat.two_pow_pos n)
    have hnext : s.toNat / 2 ^ lo / 2 ^ n % 2 = (s.toNat.testBit (lo + n)).toNat := by
      rw [Nat.div_div_eq_div_mul, ← pow_add, Nat.toNat_testBit]
    rw [digit] at ih
    rw [digit, List.range_succ, List.foldl_append, ih, List.foldl_cons, List.foldl_nil,
      Nat.mod_pow_succ, hnext]
    split
    · next hin =>
      rw [toNat_bitBe s hin, Nat.or_comm, ← Nat.shiftLeft_add_eq_or_of_lt hlt,
        Nat.shiftLeft_eq, Nat.add_comm, Nat.mul_comm]
    · next hout =>
      have hzero : s.toNat.testBit (lo + n) = false := Nat.testBit_lt_two_pow
        (lt_of_lt_of_le s.isLt (Nat.pow_le_pow_right (by decide) (Nat.le_of_not_lt hout)))
      rw [hzero, Bool.toNat_false, Nat.mul_zero, Nat.add_zero]

/-! ## Sums of multiples -/

variable {M : Type*} [AddCommGroup M] {points : List M} {scalars : List (BitVec 256)} {window : ℕ}

/-- Every point times `f` of its scalar. -/
def multiples (f : BitVec 256 → ℕ) (points : List M) (scalars : List (BitVec 256)) : M :=
  ((points.zip scalars).map fun ps => f ps.2 • ps.1).sum

/-- What the scalars come to is all that matters of them. -/
theorem multiples_congr {f g : BitVec 256 → ℕ} (h : ∀ s, f s = g s) :
    multiples f points scalars = multiples g points scalars := by
  rw [funext h]

theorem multiples_zero : multiples (fun _ => 0) points scalars = 0 := by
  unfold multiples
  induction points.zip scalars with
  | nil => rfl
  | cons ps l ih => rw [List.map_cons, List.sum_cons, zero_nsmul, ih, add_zero]

/-- Multiples of a sum. -/
theorem multiples_add (f g : BitVec 256 → ℕ) :
    multiples (fun s => f s + g s) points scalars =
      multiples f points scalars + multiples g points scalars := by
  unfold multiples
  induction points.zip scalars with
  | nil => exact (add_zero 0).symm
  | cons ps l ih =>
    simp only [List.map_cons, List.sum_cons]
    rw [ih, add_nsmul, add_add_add_comm]

/-- Multiples of a multiple. -/
theorem multiples_mul (n : ℕ) (f : BitVec 256 → ℕ) :
    multiples (fun s => n * f s) points scalars = n • multiples f points scalars := by
  unfold multiples
  induction points.zip scalars with
  | nil => exact (nsmul_zero n).symm
  | cons ps l ih =>
    simp only [List.map_cons, List.sum_cons]
    rw [ih, nsmul_add, mul_comm, mul_nsmul]

/-! ## One window -/

/-- A point's digit is the weight it adds. -/
theorem fillBucket_spec (lo : ℕ) {buckets : List M} (h : buckets.length = 2 ^ window) (p : M)
    (s : BitVec 256) :
    (fillBucket lo window buckets (p, writeBeBytes s)).length = 2 ^ window ∧
    Buckets.indexSum 0 (fillBucket lo window buckets (p, writeBeBytes s)) =
      Buckets.indexSum 0 buckets + (s.toNat / 2 ^ lo % 2 ^ window) • p := by
  unfold fillBucket
  dsimp only
  rw [digit_eq]
  split
  · have hd : s.toNat / 2 ^ lo % 2 ^ window < buckets.length := by
      rw [h]
      exact Nat.mod_lt _ (Nat.two_pow_pos window)
    rw [List.length_modify, Buckets.indexSum_modify _ hd, Nat.zero_add]
    exact ⟨h, rfl⟩
  · next h0 =>
    rw [not_ne_iff.mp h0, zero_nsmul, add_zero]
    exact ⟨h, rfl⟩

/-- The buckets, weighted by their numbers, are the points times their digits. -/
theorem fillBuckets_spec (points : List M) (scalars : List (BitVec 256)) (lo window : ℕ) :
    (fillBuckets points (scalars.map writeBeBytes) lo window).length = 2 ^ window ∧
    Buckets.indexSum 0 (fillBuckets points (scalars.map writeBeBytes) lo window) =
      multiples (fun s => s.toNat / 2 ^ lo % 2 ^ window) points scalars := by
  have hloop : ∀ (l : List (M × BitVec 256)) (bs : List M), bs.length = 2 ^ window →
      ((l.map fun ps => (ps.1, writeBeBytes ps.2)).foldl (fillBucket lo window) bs).length =
        2 ^ window ∧
      Buckets.indexSum 0
          ((l.map fun ps => (ps.1, writeBeBytes ps.2)).foldl (fillBucket lo window) bs) =
        Buckets.indexSum 0 bs + (l.map fun ps => (ps.2.toNat / 2 ^ lo % 2 ^ window) • ps.1).sum
      := by
    intro l
    induction l with
    | nil => exact fun bs hbs => ⟨hbs, (add_zero _).symm⟩
    | cons ps l ih =>
      intro bs hbs
      obtain ⟨hlen', hsum'⟩ := fillBucket_spec lo hbs ps.1 ps.2
      obtain ⟨hlen, hsum⟩ := ih _ hlen'
      rw [List.map_cons, List.foldl_cons]
      refine ⟨hlen, hsum.trans ?_⟩
      rw [hsum', List.map_cons, List.sum_cons, add_assoc]
  obtain ⟨hlen, hsum⟩ := hloop (points.zip scalars) (List.replicate (2 ^ window) 0) (by simp)
  rw [Buckets.indexSum_replicate_zero, zero_add] at hsum
  rw [fillBuckets, List.zip_map_right]
  exact ⟨hlen, hsum⟩

/-- The running sums add up to the weighted sum. -/
theorem bucketTotal_eq {buckets : List M} (h : buckets.length = 2 ^ window) :
    bucketTotal buckets window = Buckets.indexSum 0 buckets := by
  have hvisit : (List.range' 1 (2 ^ window - 1)).map (buckets.getD · 0) = buckets.tail := by
    apply List.ext_getElem
    · rw [List.length_map, List.length_range', List.length_tail, h]
    · intro j hj _
      rw [List.length_map, List.length_range'] at hj
      rw [List.getElem_map, List.getElem_range', List.getElem_tail, Nat.one_mul, Nat.add_comm 1 j,
        List.getD_eq_getElem _ _ (by omega)]
  have hfold : (List.range' 1 (2 ^ window - 1)).reverse.foldl
        (fun s j => Buckets.suffixStep s (buckets.getD j 0)) (0, 0) =
      buckets.tail.reverse.foldl Buckets.suffixStep (0, 0) := by
    rw [← hvisit, ← List.map_reverse, List.foldl_map]
  rw [bucketTotal, hfold, Buckets.foldl_suffixStep_reverse, Buckets.indexSum_zero_tail]

/-- What one pass adds is the window's share of every scalar. -/
theorem bucketTotal_fillBuckets (points : List M) (scalars : List (BitVec 256)) (lo window : ℕ) :
    bucketTotal (fillBuckets points (scalars.map writeBeBytes) lo window) window =
      multiples (fun s => s.toNat / 2 ^ lo % 2 ^ window) points scalars := by
  obtain ⟨hlen, hsum⟩ := fillBuckets_spec points scalars lo window
  rw [bucketTotal_eq hlen, hsum]

/-! ## All windows -/

/-- Doubling `n` times. -/
theorem foldl_double (acc : M) (n : ℕ) :
    (List.range n).foldl (fun acc _ => double acc) acc = 2 ^ n • acc := by
  induction n with
  | zero => rw [pow_zero, one_nsmul]; rfl
  | succ n ih =>
    rw [List.range_succ, List.foldl_append, ih, List.foldl_cons, List.foldl_nil, double, pow_succ,
      mul_nsmul, two_nsmul]

/-- One pass moves the accumulator one window down. -/
theorem pass_eq (k : ℕ) {first : Bool} {acc : M} (hfirst : first = true → acc = 0)
    (hacc : acc = multiples (fun s => s.toNat / 2 ^ ((k + 1) * window)) points scalars) :
    (if first then acc else (List.range window).foldl (fun acc _ => double acc) acc) +
        bucketTotal (fillBuckets points (scalars.map writeBeBytes) (k * window) window) window =
      multiples (fun s => s.toNat / 2 ^ (k * window)) points scalars := by
  have hdoubled : (if first then acc
      else (List.range window).foldl (fun acc _ => double acc) acc) = 2 ^ window • acc := by
    split
    · next h => rw [hfirst h, nsmul_zero]
    · exact foldl_double acc window
  rw [hdoubled, hacc, bucketTotal_fillBuckets, ← multiples_mul, ← multiples_add]
  refine multiples_congr fun s => ?_
  rw [Nat.succ_mul]
  exact (Buckets.div_pow_window _ _ _).symm

/-- The invariant of the loop: above the window at `lo` the accumulator holds every point times
    what is left of its scalar there, which before the first pass is nothing. -/
theorem msmLoop_eq (k : ℕ) {first : Bool} {acc : M} (hfirst : first = true → acc = 0)
    (hacc : acc = multiples (fun s => s.toNat / 2 ^ ((k + 1) * window)) points scalars) :
    msmLoop points (scalars.map writeBeBytes) window k first acc =
      multiples BitVec.toNat points scalars := by
  induction k generalizing first acc with
  | zero =>
    have hpass := pass_eq 0 hfirst hacc
    rw [msmLoop]
    refine hpass.trans (multiples_congr fun s => ?_)
    rw [Nat.zero_mul, pow_zero, Nat.div_one]
  | succ k ih =>
    rw [msmLoop]
    exact ih (fun h => absurd h Bool.false_ne_true) (pass_eq (k + 1) hfirst hacc)

/-! ## Double-and-add -/

/-- From bit `n - 1` down, the low `n` bits of the scalar are added in. -/
theorem foldl_doubleAndAdd (p : M) (s : BitVec 256) {n : ℕ} (hn : n ≤ 256) (term : M) :
    (List.range n).reverse.foldl (doubleAndAdd p (writeBeBytes s)) term =
      2 ^ n • term + (s.toNat % 2 ^ n) • p := by
  induction n generalizing term with
  | zero => rw [pow_zero, one_nsmul, Nat.mod_one, zero_nsmul, add_zero]; rfl
  | succ n ih =>
    have hbit : doubleAndAdd p (writeBeBytes s) term n =
        2 • term + (s.toNat / 2 ^ n % 2) • p := by
      have hb := toNat_bitBe s (show n < 256 by omega)
      rw [Nat.toNat_testBit] at hb
      unfold doubleAndAdd double
      dsimp only
      rw [← hb, two_nsmul]
      split
      · next h => rw [h, show (1 : UInt32).toNat = 1 from rfl, one_nsmul]
      · next h =>
        have h0 : (bitBe (writeBeBytes s) n).toNat = 0 := by
          have hne : (bitBe (writeBeBytes s) n).toNat ≠ 1 := fun h1 => h (UInt32.toNat_inj.mp h1)
          omega
        rw [h0, zero_nsmul, add_zero]
    rw [List.range_succ, List.reverse_append, List.reverse_singleton, List.singleton_append,
      List.foldl_cons, ih (by omega), hbit, nsmul_add, add_assoc, ← mul_nsmul', ← mul_nsmul',
      ← add_nsmul, Nat.mod_pow_succ, ← pow_succ, Nat.add_comm (s.toNat % 2 ^ n)]

/-- Double-and-add is every point times its scalar. -/
theorem msmReference_eq (points : List M) (scalars : List (BitVec 256)) :
    msmReference points scalars = multiples BitVec.toNat points scalars := by
  have hterm (p : M) (s : BitVec 256) :
      (List.range 256).reverse.foldl (doubleAndAdd p (writeBeBytes s)) 0 = s.toNat • p := by
    rw [foldl_doubleAndAdd p s le_rfl, nsmul_zero, zero_add, Nat.mod_eq_of_lt s.isLt]
  have hloop : ∀ (l : List (M × BitVec 256)) (acc : M),
      l.foldl (fun acc ps => acc + (List.range 256).reverse.foldl
        (doubleAndAdd ps.1 (writeBeBytes ps.2)) 0) acc =
      acc + (l.map fun ps => ps.2.toNat • ps.1).sum := by
    intro l
    induction l with
    | nil => exact fun acc => (add_zero acc).symm
    | cons ps l ih =>
      intro acc
      rw [List.foldl_cons, ih, hterm, List.map_cons, List.sum_cons, add_assoc]
  rw [msmReference, multiples, hloop, zero_add]

/-- **Pippenger equals double-and-add.** For every window from 1 to 16 `msm` returns, and returns
what `msm_reference` does: the sum of every scalar times its point. -/
theorem msm_eq_msmReference (hlen : points.length = scalars.length) (hlow : 1 ≤ window)
    (hhigh : window ≤ 16) :
    msm points scalars window = some (msmReference points scalars) ∧
    msmReference points scalars = ((points.zip scalars).map fun ps => ps.2.toNat • ps.1).sum := by
  refine ⟨?_, msmReference_eq points scalars⟩
  rw [msmReference_eq, msm, if_neg (by simpa using hlen), if_neg (by omega)]
  split
  · next hempty =>
    rw [List.isEmpty_iff.mp hempty]
    rfl
  · refine congrArg some (msmLoop_eq _ (fun _ => rfl) ?_)
    -- the first window starts at or above the top bit, so nothing is left above it
    have htop : 256 ≤ (256 / window + 1) * window :=
      (Nat.lt_div_mul_add hlow).le.trans_eq (Nat.succ_mul _ _).symm
    rw [← (multiples_zero : multiples (fun _ => 0) points scalars = 0)]
    refine multiples_congr fun s => (Nat.div_eq_of_lt ?_).symm
    exact lt_of_lt_of_le s.isLt (Nat.pow_le_pow_right (by decide) htop)

/-- Ten does not divide 256: the top digit has six bits. -/
theorem msm_eq_msmReference_ten :
    msm [(3 : ℤ), -5] [BitVec.ofNat 256 (2 ^ 255 + 7), 11] 10 =
        some (msmReference [3, -5] [BitVec.ofNat 256 (2 ^ 255 + 7), 11]) ∧
      msmReference [(3 : ℤ), -5] [BitVec.ofNat 256 (2 ^ 255 + 7), 11] =
        (([(3 : ℤ), -5].zip [BitVec.ofNat 256 (2 ^ 255 + 7), 11]).map
          fun ps => ps.2.toNat • ps.1).sum :=
  msm_eq_msmReference rfl (by decide) (by decide)

end Msm
end Guest
end Hazync
