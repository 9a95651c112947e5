import Hazync.Guest.FieldBigint2

/-!
# The conversion to and from signed-30 limbs

`modinv32` works on nine limbs of 30 bits. `secp256k1_fe_to_signed30` cuts the eight 32-bit limbs
into windows and `secp256k1_fe_from_signed30` ORs them back in, each limb straddling two words at
its own offset. Bit by bit both are the one number.

## Bits

256 bits in words of 32 and the same bits in limbs of 30 line up only every 480 bits, so each limb
starts at another place within a word. The code computes the place by a shift and a mask and takes
64 bits from there, or puts them there. Limb by limb that would be nine cases in each direction.
Instead both directions are read as statements about one number: a limb is a window of it
(`toNat_toLimb30`), and to OR a limb in is to OR a shifted number in (`value_orLimb30`), which is a
sum because the bits do not meet. What is left is that the digits of a number in base 2³⁰ make the
number.

Going in, the limbs may be any that stand for a number below `p`, and the last of them may be larger
than 30 bits in general. For such a number it is not, since the others are not negative
(`lt_of_value`).
-/

namespace Hazync
namespace Guest
namespace Bigint2

/-- `secp256k1_modinv32_signed30`. -/
structure Signed30 where
  v : List Int32
  length_v : v.length = 9
  deriving DecidableEq

attribute [simp] Signed30.length_v

/-- The number of nine limbs, which may be negative. -/
def signedValue : List Int32 → ℤ
  | [] => 0
  | x :: l => x.toInt + 2 ^ 30 * signedValue l

/-- The number of the nine limbs. -/
def Signed30.value (a : Signed30) : ℤ := signedValue a.v

/-- `UINT32_MAX >> 2`. -/
def M30 : UInt32 := (0xFFFFFFFF : UInt32) >>> 2

/-- Limb `i` of `secp256k1_fe_to_signed30`: 30 bits from bit `30 i` on. -/
def toLimb30 (t : List UInt32) (i : ℕ) : UInt32 :=
  let bit := 30 * i
  let k := bit >>> 5
  let s := bit &&& 31
  let w := (t.getD k 0).toUInt64 |||
    (if k + 1 < 8 then (t.getD (k + 1) 0).toUInt64 <<< 32 else 0)
  ((w >>> UInt64.ofNat s) &&& M30.toUInt64).toUInt32

/-- `secp256k1_fe_to_signed30`. -/
def toSigned30 (a : Fe) : Signed30 :=
  ⟨(List.range 9).map fun i => (toLimb30 (hzCanon a).n i).toInt32, by simp⟩

/-- One round of `secp256k1_fe_from_signed30`. -/
def orLimb30 (out : List UInt32) (i : ℕ) (x : Int32) : List UInt32 :=
  let bit := 30 * i
  let k := bit >>> 5
  let s := bit &&& 31
  let v := x.toUInt32.toUInt64
  let out := out.modify k (· ||| (v <<< UInt64.ofNat s).toUInt32)
  if s ≠ 0 then out.modify (k + 1) (· ||| (v >>> UInt64.ofNat (32 - s)).toUInt32) else out

theorem length_orLimb30 (out : List UInt32) (i : ℕ) (x : Int32) :
    (orLimb30 out i x).length = out.length := by
  unfold orLimb30
  dsimp only
  split <;> simp

/-- The words after `m` rounds. -/
def fromLimbs30 (v : List Int32) (m : ℕ) : List UInt32 :=
  (List.range m).foldl (fun out i => orLimb30 out i (v.getD i 0)) (List.replicate 9 0)

theorem length_fromLimbs30 (v : List Int32) (m : ℕ) : (fromLimbs30 v m).length = 9 := by
  induction m with
  | zero => rfl
  | succ m ih =>
    rw [fromLimbs30] at ih ⊢
    rw [List.range_succ, List.foldl_append, List.foldl_cons, List.foldl_nil, length_orLimb30, ih]

/-- `secp256k1_fe_from_signed30`. -/
def fromSigned30 (a : Signed30) : Fe :=
  ⟨(fromLimbs30 a.v 9).take 8, by rw [List.length_take, length_fromLimbs30]; rfl⟩

/-! ## Out: the windows are the digits -/

theorem shift_and (bit : ℕ) : bit >>> 5 = bit / 32 ∧ bit &&& 31 = bit % 32 :=
  ⟨Nat.shiftRight_eq_div_pow bit 5, Nat.and_two_pow_sub_one_eq_mod bit 5⟩

/-- Two neighbouring words hold 64 bits of the number. -/
theorem testBit_words {t : List UInt32} (ht : t.length = 8) (k : ℕ) {j : ℕ} (hj : j < 64) :
    ((t.getD k 0).toUInt64 |||
        (if k + 1 < 8 then (t.getD (k + 1) 0).toUInt64 <<< 32 else 0)).toNat.testBit j =
      (Limbs.value t).testBit (32 * k + j) := by
  have hnext : (if k + 1 < 8 then (t.getD (k + 1) 0).toUInt64 <<< 32 else 0) =
      (t.getD (k + 1) 0).toUInt64 <<< 32 := by
    split
    · rfl
    · next h =>
      rw [List.getD_eq_default _ _ (by omega)]
      rfl
  rw [hnext, UInt64.toNat_or, UInt64.toNat_shiftLeft, UInt32.toNat_toUInt64, UInt32.toNat_toUInt64,
    Nat.testBit_or, show (32 : UInt64).toNat % 64 = 32 from rfl, Nat.testBit_mod_two_pow,
    Nat.testBit_shiftLeft, Limbs.testBit_value, Nat.mul_add_div (by decide), Nat.mul_add_mod]
  rcases Nat.lt_or_ge j 32 with h | h
  · rw [Nat.div_eq_of_lt h, Nat.mod_eq_of_lt h]
    simp [Nat.not_le_of_lt h]
  · have hhigh : (t.getD k 0).toNat.testBit j = false :=
      Nat.testBit_lt_two_pow (lt_of_lt_of_le (t.getD k 0).toNat_lt
        (Nat.pow_le_pow_right (by decide) h))
    rw [hhigh, show j / 32 = 1 by omega, show j % 32 = j - 32 by omega]
    simp [h, hj]

/-- A limb is the window of 30 bits at its place. -/
theorem toNat_toLimb30 {t : List UInt32} (ht : t.length = 8) (i : ℕ) :
    (toLimb30 t i).toNat = Limbs.value t / 2 ^ (30 * i) % 2 ^ 30 := by
  have hs : 30 * i % 32 < 32 := Nat.mod_lt _ (by decide)
  apply Nat.eq_of_testBit_eq
  intro j
  unfold toLimb30
  dsimp only
  rw [(shift_and (30 * i)).1, (shift_and (30 * i)).2, UInt64.toNat_toUInt32, UInt64.toNat_and,
    UInt64.toNat_shiftRight, UInt64.toNat_ofNat', Nat.mod_eq_of_lt (by omega : 30 * i % 32 < 2 ^ 64),
    Nat.mod_eq_of_lt (by omega : 30 * i % 32 < 64), Nat.testBit_mod_two_pow, Nat.testBit_and,
    Nat.testBit_shiftRight, show M30.toUInt64.toNat = 2 ^ 30 - 1 from rfl,
    Nat.testBit_two_pow_sub_one, Nat.testBit_mod_two_pow, Nat.testBit_div_two_pow]
  by_cases hj : j < 30
  · rw [testBit_words ht _ (by omega), show 32 * (30 * i / 32) + (30 * i % 32 + j) = j + 30 * i by
      omega]
    simp [hj, show j < 32 by omega]
  · simp [hj]

/-- The digits of a number in base `2^30`. -/
theorem ofDigits_windows (n m : ℕ) :
    Nat.ofDigits (2 ^ 30) ((List.range m).map fun i => n / 2 ^ (30 * i) % 2 ^ 30) =
      n % (2 ^ 30) ^ m := by
  induction m with
  | zero => rw [pow_zero, Nat.mod_one]; rfl
  | succ m ih =>
    rw [List.range_succ, List.map_append, Nat.ofDigits_append, ih, List.length_map,
      List.length_range, List.map_singleton, Nat.ofDigits_singleton, pow_mul,
      Nat.mod_pow_succ (x := n) (b := 2 ^ 30) (k := m)]

/-! ## Back: the words are ORed in apart -/

/-- A word that is changed, and the others. -/
theorem getD_modify {out : List UInt32} {k : ℕ} (hk : k < out.length) (f : UInt32 → UInt32) (a : ℕ) :
    (out.modify k f).getD a 0 = if k = a then f (out.getD a 0) else out.getD a 0 := by
  rw [List.getD_eq_getElem?_getD, List.getElem?_modify, List.getD_eq_getElem?_getD]
  split
  · next h =>
    subst h
    rw [List.getElem?_eq_getElem hk]
    rfl
  · rw [id_map']

/-- The two pieces of a limb, in the words they go to. -/
theorem testBit_low_piece (x : Int32) {s b : ℕ} (hs : s < 32) (hb : b < 32) :
    (x.toUInt32.toUInt64 <<< UInt64.ofNat s).toUInt32.toNat.testBit b =
      (decide (s ≤ b) && x.toUInt32.toNat.testBit (b - s)) := by
  rw [UInt64.toNat_toUInt32, UInt64.toNat_shiftLeft, UInt64.toNat_ofNat',
    Nat.mod_eq_of_lt (by omega : s < 2 ^ 64), Nat.mod_eq_of_lt (by omega : s < 64),
    Nat.testBit_mod_two_pow, Nat.testBit_mod_two_pow, Nat.testBit_shiftLeft, UInt32.toNat_toUInt64]
  simp [hb, show b < 64 by omega]

theorem testBit_high_piece (x : Int32) (s : ℕ) {b : ℕ} (hb : b < 32) :
    (x.toUInt32.toUInt64 >>> UInt64.ofNat (32 - s)).toUInt32.toNat.testBit b =
      x.toUInt32.toNat.testBit (32 - s + b) := by
  rw [UInt64.toNat_toUInt32, UInt64.toNat_shiftRight, UInt64.toNat_ofNat',
    Nat.mod_eq_of_lt (by omega : 32 - s < 2 ^ 64), Nat.mod_eq_of_lt (by omega : 32 - s < 64),
    Nat.testBit_mod_two_pow, Nat.testBit_shiftRight, UInt32.toNat_toUInt64]
  simp [hb]

/-- A round is an OR of the shifted limb into the number. -/
theorem value_orLimb30 {out : List UInt32} (hout : out.length = 9) {i : ℕ} (hi : i < 9)
    {x : Int32} (hx : x.toUInt32.toNat < 2 ^ 30) :
    Limbs.value (orLimb30 out i x) = Limbs.value out ||| (x.toUInt32.toNat <<< (30 * i)) := by
  have hhigh {n : ℕ} (hn : 30 ≤ n) : x.toUInt32.toNat.testBit n = false :=
    Nat.testBit_lt_two_pow (lt_of_lt_of_le hx (Nat.pow_le_pow_right (by decide) hn))
  have hs : 30 * i % 32 < 32 := Nat.mod_lt _ (by decide)
  -- bit by bit: the limb covers thirty of them, in at most two words
  apply Nat.eq_of_testBit_eq
  intro j
  have hb : j % 32 < 32 := Nat.mod_lt _ (by decide)
  rw [Nat.testBit_or, Nat.testBit_shiftLeft, Limbs.testBit_value, Limbs.testBit_value]
  unfold orLimb30
  dsimp only
  rw [(shift_and (30 * i)).1, (shift_and (30 * i)).2]
  generalize hk : 30 * i / 32 = k
  generalize hs' : 30 * i % 32 = s at hs
  by_cases hlow : k = j / 32
  · -- the word the limb starts in
    have hpiece : ((out.modify k (· ||| (x.toUInt32.toUInt64 <<< UInt64.ofNat s).toUInt32)).getD
        (j / 32) 0).toNat.testBit (j % 32) =
        ((out.getD (j / 32) 0).toNat.testBit (j % 32) ||
          (decide (30 * i ≤ j) && x.toUInt32.toNat.testBit (j - 30 * i))) := by
      rw [getD_modify (by omega), if_pos hlow, UInt32.toNat_or, Nat.testBit_or,
        testBit_low_piece x hs hb, show j % 32 - s = j - 30 * i by omega,
        decide_eq_decide.mpr (show s ≤ j % 32 ↔ 30 * i ≤ j by omega)]
    split
    · rw [getD_modify (by rw [List.length_modify]; omega), if_neg (by omega)]
      exact hpiece
    · exact hpiece
  · have hout' : (out.modify k (· ||| (x.toUInt32.toUInt64 <<< UInt64.ofNat s).toUInt32)).getD
        (j / 32) 0 = out.getD (j / 32) 0 := by
      rw [getD_modify (by omega), if_neg hlow]
    split
    · rw [getD_modify (by rw [List.length_modify]; omega), hout']
      by_cases hnext : k + 1 = j / 32
      · -- the word it runs over into
        rw [if_pos hnext, UInt32.toNat_or, Nat.testBit_or, testBit_high_piece x s hb,
          show 32 - s + j % 32 = j - 30 * i by omega]
        simp [show 30 * i ≤ j by omega]
      · rw [if_neg hnext]
        by_cases hle : 30 * i ≤ j
        · rw [hhigh (by omega), Bool.and_false, Bool.or_false]
        · simp [hle]
    · rw [hout']
      by_cases hle : 30 * i ≤ j
      · rw [hhigh (by omega), Bool.and_false, Bool.or_false]
      · simp [hle]

/-- The limbs as numbers. -/
def limbs30 (v : List Int32) : List ℕ := v.map fun x => x.toUInt32.toNat

@[simp] theorem length_limbs30 (v : List Int32) : (limbs30 v).length = v.length :=
  List.length_map _

/-- The invariant of the loop: after `m` rounds the words hold the low `m` limbs, which leave the
    bits of the next one clear. -/
theorem value_fromLimbs30 {v : List Int32} (hlen : v.length = 9)
    (hv : ∀ x ∈ v, x.toUInt32.toNat < 2 ^ 30) {m : ℕ} (hm : m ≤ 9) :
    Limbs.value (fromLimbs30 v m) = Nat.ofDigits (2 ^ 30) ((limbs30 v).take m) := by
  induction m with
  | zero => exact Limbs.value_replicate_zero 9
  | succ m ih =>
    have hmem : v.getD m 0 ∈ v := by
      rw [List.getD_eq_getElem _ _ (by omega)]
      exact List.getElem_mem _
    have htake : (limbs30 v).take (m + 1) = (limbs30 v).take m ++ [(v.getD m 0).toUInt32.toNat] := by
      rw [List.take_succ_eq_append_getElem (by rw [length_limbs30]; omega),
        List.getD_eq_getElem _ _ (by omega)]
      simp [limbs30]
    have hlt : Nat.ofDigits (2 ^ 30) ((limbs30 v).take m) < 2 ^ (30 * m) := by
      have h := Nat.ofDigits_lt_base_pow_length (b := 2 ^ 30) (l := (limbs30 v).take m) (by decide)
        fun x hx => by
          obtain ⟨y, hy, rfl⟩ := List.mem_map.mp (List.mem_of_mem_take hx)
          exact hv y hy
      rw [List.length_take, length_limbs30, hlen, Nat.min_eq_left (by omega)] at h
      rwa [pow_mul]
    have hstep : fromLimbs30 v (m + 1) = orLimb30 (fromLimbs30 v m) m (v.getD m 0) := by
      rw [fromLimbs30, List.range_succ, List.foldl_append, List.foldl_cons, List.foldl_nil,
        fromLimbs30]
    rw [hstep, value_orLimb30 (length_fromLimbs30 v m) (by omega) (hv _ hmem), ih (by omega), htake,
      Nat.ofDigits_append, Nat.ofDigits_singleton, List.length_take, length_limbs30, hlen,
      Nat.min_eq_left (by omega), ← pow_mul, Nat.or_comm, Nat.shiftLeft_eq, Nat.mul_comm _ (2 ^ _),
      ← Nat.two_pow_add_eq_or_of_lt hlt, Nat.add_comm]

/-- The words hold the number of the limbs, where that has 256 bits. -/
theorem fromSigned30_value {a : Signed30} (ha : ∀ x ∈ a.v, x.toUInt32.toNat < 2 ^ 30)
    (hlt : Nat.ofDigits (2 ^ 30) (limbs30 a.v) < 2 ^ 256) :
    (fromSigned30 a).value = Nat.ofDigits (2 ^ 30) (limbs30 a.v) := by
  have hval := value_fromLimbs30 a.length_v ha le_rfl
  rw [List.take_of_length_le (by simp)] at hval
  have hsplit := Limbs.value_append ((fromLimbs30 a.v 9).take 8) ((fromLimbs30 a.v 9).drop 8)
  rw [List.take_append_drop, hval, List.length_take, length_fromLimbs30,
    show min 8 9 = 8 from rfl] at hsplit
  have hpos : Limbs.value ((fromLimbs30 a.v 9).drop 8) = 0 := by
    by_contra hne
    rw [hsplit] at hlt
    omega
  rw [hpos, Nat.mul_zero, Nat.add_zero] at hsplit
  exact hsplit.symm

/-! ## Round trips -/

/-- The limbs going out are the windows of the canonical value. -/
theorem limbs30_toSigned30 (a : Fe) :
    limbs30 (toSigned30 a).v =
      (List.range 9).map fun i => (hzCanon a).value / 2 ^ (30 * i) % 2 ^ 30 := by
  rw [limbs30, toSigned30, List.map_map]
  refine List.map_congr_left fun i _ => ?_
  exact toNat_toLimb30 (hzCanon a).length_n i

theorem ofDigits_toSigned30 (a : Fe) :
    Nat.ofDigits (2 ^ 30) (limbs30 (toSigned30 a).v) = (hzCanon a).value := by
  rw [limbs30_toSigned30, ofDigits_windows, Nat.mod_eq_of_lt]
  exact (hzCanon a).value_lt.trans (by decide)

/-- A limb that goes out has 30 bits. -/
theorem toSigned30_lt (a : Fe) : ∀ x ∈ (toSigned30 a).v, x.toUInt32.toNat < 2 ^ 30 := by
  intro x hx
  have hmem : x.toUInt32.toNat ∈ limbs30 (toSigned30 a).v := List.mem_map_of_mem hx
  rw [limbs30_toSigned30] at hmem
  obtain ⟨i, -, heq⟩ := List.mem_map.mp hmem
  rw [← heq]
  exact Nat.mod_lt _ (by decide)

/-- A limb that fits 30 bits is not negative. -/
theorem toInt_eq_toNat {x : Int32} (hx : x.toUInt32.toNat < 2 ^ 30) :
    x.toInt = (x.toUInt32.toNat : ℤ) := by
  have hcond : x.toInt = if 2 * x.toUInt32.toNat < 2 ^ 32 then (x.toUInt32.toNat : ℤ)
      else (x.toUInt32.toNat : ℤ) - (2 ^ 32 : ℕ) := BitVec.toInt_eq_toNat_cond x.toBitVec
  rwa [if_pos (by omega)] at hcond

theorem toNat_lt_of_toInt {x : Int32} (h0 : 0 ≤ x.toInt) (h1 : x.toInt < 2 ^ 30) :
    x.toUInt32.toNat < 2 ^ 30 := by
  have hx := toNat_toUInt32_of_nonneg (Int32.le_iff_toInt_le.mpr h0)
  omega

/-- Limbs that are not negative have the number of their digits. -/
theorem signedValue_eq {v : List Int32} (hv : ∀ x ∈ v, x.toUInt32.toNat < 2 ^ 30) :
    signedValue v = (Nat.ofDigits (2 ^ 30 : ℕ) (limbs30 v) : ℕ) := by
  induction v with
  | nil => rfl
  | cons x v ih =>
    rw [signedValue, ih fun y hy => hv y (List.mem_cons_of_mem _ hy),
      toInt_eq_toNat (hv x List.mem_cons_self), limbs30, limbs30, List.map_cons, Nat.ofDigits_cons]
    push_cast
    ring

/-- The limbs as numbers determine them. -/
theorem limbs30_injective : Function.Injective limbs30 := by
  refine List.map_injective_iff.mpr fun x y h => ?_
  obtain ⟨x⟩ := x
  obtain ⟨y⟩ := y
  exact congrArg Int32.ofUInt32 (UInt32.toNat_inj.mp h)

theorem signedValue_append (v : List Int32) (x : Int32) :
    signedValue (v ++ [x]) = signedValue v + (2 ^ 30) ^ v.length * x.toInt := by
  induction v with
  | nil => simp [signedValue]
  | cons y v ih =>
    rw [List.cons_append, signedValue, ih, signedValue, List.length_cons]
    ring

/-- Limb 8 of a number below `p` holds what the others leave of it. -/
theorem lt_of_value {a : Signed30}
    (hlow : ∀ x ∈ a.v.take 8, 0 ≤ x.toInt ∧ x.toInt < 2 ^ 30) (h0 : 0 ≤ a.value)
    (hp : a.value < fieldPrime) : ∀ x ∈ a.v, x.toUInt32.toNat < 2 ^ 30 := by
  have hlow' : ∀ x ∈ a.v.take 8, x.toUInt32.toNat < 2 ^ 30 := fun x hx =>
    toNat_lt_of_toInt (hlow x hx).1 (hlow x hx).2
  have hsplit : a.v = a.v.take 8 ++ [a.v.getD 8 0] := by
    rw [List.getD_eq_getElem _ _ (by simp), ← List.take_succ_eq_append_getElem,
      List.take_of_length_le (by simp)]
  have hval := signedValue_append (a.v.take 8) (a.v.getD 8 0)
  have hlt := Nat.ofDigits_lt_base_pow_length (b := 2 ^ 30) (l := limbs30 (a.v.take 8)) (by decide)
    fun x hx => by
      obtain ⟨y, hy, rfl⟩ := List.mem_map.mp hx
      exact hlow' y hy
  have hlen : (a.v.take 8).length = 8 := by simp
  rw [← hsplit, signedValue_eq hlow', hlen] at hval
  rw [length_limbs30, hlen] at hlt
  rw [Signed30.value, hval] at h0 hp
  unfold fieldPrime at hp
  have htop : 0 ≤ (a.v.getD 8 0).toInt ∧ (a.v.getD 8 0).toInt < 2 ^ 30 := by omega
  intro x hx
  rw [hsplit] at hx
  rcases List.mem_append.mp hx with hx | hx
  · exact hlow' x hx
  · rw [List.mem_singleton.mp hx]
    exact toNat_lt_of_toInt htop.1 htop.2

/-- **The signed-30 conversion round-trips.** Out and back gives the canonical representative, in
and out gives the limbs that were there, for whatever `modinv32` may return, and every limb that
goes out is in its range. -/
theorem signed30_roundtrip :
    (∀ v : Fe, (fromSigned30 (toSigned30 v)).value = v.value % fieldPrime) ∧
    (∀ x : Signed30, (∀ l ∈ x.v.take 8, 0 ≤ l.toInt ∧ l.toInt < 2 ^ 30) → 0 ≤ x.value →
      x.value < fieldPrime → toSigned30 (fromSigned30 x) = x) ∧
    ∀ v : Fe, ∀ l ∈ (toSigned30 v).v, 0 ≤ l.toInt ∧ l.toInt < 2 ^ 30 := by
  refine ⟨fun v => ?_, fun x hlow h0 hp => ?_, fun v l hl => ?_⟩
  · have hof := ofDigits_toSigned30 v
    have hlt := (hzCanon v).value_lt
    rw [fromSigned30_value (toSigned30_lt v) (by rw [hof]; exact hlt), hof, hzCanon_value]
  · have hx := lt_of_value hlow h0 hp
    have hval : x.value = _ := signedValue_eq hx
    have hlt : Nat.ofDigits (2 ^ 30) (limbs30 x.v) < fieldPrime := by omega
    have hfrom := fromSigned30_value hx (hlt.trans (by decide))
    have hlimbs : limbs30 (toSigned30 (fromSigned30 x)).v = limbs30 x.v := by
      refine Nat.ofDigits_inj_of_len_eq (b := 2 ^ 30) (by decide) (by simp) ?_ ?_ ?_
      · exact fun l hl => by
          obtain ⟨y, hy, rfl⟩ := List.mem_map.mp hl
          exact toSigned30_lt _ y hy
      · exact fun l hl => by
          obtain ⟨y, hy, rfl⟩ := List.mem_map.mp hl
          exact hx y hy
      · rw [ofDigits_toSigned30, hzCanon_value, hfrom, Nat.mod_eq_of_lt hlt]
    have hv := limbs30_injective hlimbs
    generalize toSigned30 (fromSigned30 x) = y at hv ⊢
    cases x
    cases y
    congr
  · have hlt := toSigned30_lt v l hl
    rw [toInt_eq_toNat hlt]
    exact ⟨Int.natCast_nonneg _, by exact_mod_cast hlt⟩

/-- `p - 1` in signed-30 limbs, the largest number there is to convert. -/
theorem signed30_roundtrip_largest :
    toSigned30 (fromSigned30 ⟨[0x3FFFFC2E, 0x3FFFFFFB, 0x3FFFFFFF, 0x3FFFFFFF, 0x3FFFFFFF,
        0x3FFFFFFF, 0x3FFFFFFF, 0x3FFFFFFF, 0xFFFF], rfl⟩) =
      ⟨[0x3FFFFC2E, 0x3FFFFFFB, 0x3FFFFFFF, 0x3FFFFFFF, 0x3FFFFFFF, 0x3FFFFFFF, 0x3FFFFFFF,
        0x3FFFFFFF, 0xFFFF], rfl⟩ :=
  signed30_roundtrip.2.1 _ (by simp) (by decide) (by decide)

end Bigint2
end Guest
end Hazync
