import Mathlib.Data.List.Lex
import Mathlib.Order.Basic
import Hazync.Smt.Roots

/-!
# Keys as bytes and as paths (`coinbase-smt/src/lib.rs`)

The full tree keeps its leaves in the order of the key bytes and names an inner node by its path
written out as a key with the other bits zero. Here is what these bytes mean: the order is that of
the paths (`lt_iff_bit`), a masked key is the name of a path (`mask_eq_iff`), and the keys from a
name to the same with every further bit set are those below the node (`mem_range_iff`).

## One bit at a time

The first bit of a key is the highest of its first byte. With this order of bits the order of byte
arrays is the order of paths, left before right, and a subtree is an interval of keys. The source
relies on it when it takes a range of an ordered map for the leaves below a node.

The functions on keys are written with bytes and shifts. Each has one lemma which says what it does
to bit `i`, and everything else follows from these: two keys that agree in all bits are equal, and a
path is its bits. So the shifts are looked at here and nowhere else.
-/

namespace Hazync
namespace Smt

open ByteStrings

/-- Arrays of bytes compare by their first difference. -/
instance : LinearOrder Bytes32 :=
  let bytewise : LinearOrder Bytes32 := LinearOrder.lift' (fun k => k.toList.map UInt8.toNat)
    ((List.map_injective_iff.mpr fun _ _ => UInt8.toNat_inj.mp).comp List.Vector.toList_injective)
  { bytewise with
    toDecidableEq := inferInstance
    compare_eq_compareOfLessAndEq := fun a b =>
      (bytewise.compare_eq_compareOfLessAndEq a b).trans (by congr) }

/-- The order, byte by byte. -/
theorem lt_def {k l : Bytes32} :
    k < l ↔ k.toList.map UInt8.toNat < l.toList.map UInt8.toNat := Iff.rfl

/-- `key` truncated to its first `depth` bits. -/
def mask (key : Bytes32) (depth : ℕ) : Bytes32 :=
  .ofFn fun j =>
    if j < depth / 8 then key.get j
    else if j = depth / 8 ∧ depth % 8 ≠ 0 then
      key.get j &&& ((0xff : UInt8) <<< UInt8.ofNat (8 - depth % 8))
    else 0

/-- `lo` with every bit from `depth` on set: the `hi` of `under`. -/
def fill (lo : Bytes32) (depth : ℕ) : Bytes32 :=
  .ofFn fun j =>
    if j < depth / 8 then lo.get j
    else if j = depth / 8 ∧ depth % 8 ≠ 0 then
      lo.get j ||| ((0xff : UInt8) >>> UInt8.ofNat (depth % 8))
    else 0xff

/-- `key[d / 8] ^= 1 << (7 - (d % 8))`. -/
def flipBit (key : Bytes32) (d : ℕ) : Bytes32 :=
  .ofFn fun j => if j = d / 8 then key.get j ^^^ (1 <<< UInt8.ofNat (7 - d % 8)) else key.get j

/-- `key[d / 8] |= 1 << (7 - (d % 8))`. -/
def setBit (key : Bytes32) (d : ℕ) : Bytes32 :=
  .ofFn fun j => if j = d / 8 then key.get j ||| (1 <<< UInt8.ofNat (7 - d % 8)) else key.get j

/-! ## Bits -/

/-- A bit of an array that is given by its bytes. -/
theorem bit_ofFn (f : Fin 32 → UInt8) {i : ℕ} (hi : i / 8 < 32) :
    bit (.ofFn f) i = (f ⟨i / 8, hi⟩).toNat.testBit (7 - i % 8) := by
  rw [bit_eq _ hi, List.Vector.get_ofFn]

/-- The first bits stay, the others are 0. -/
theorem bit_mask (key : Bytes32) (depth : ℕ) {i : ℕ} (hi : i < DEPTH) :
    bit (mask key depth) i = (decide (i < depth) && bit key i) := by
  have hbyte : i / 8 < 32 := Nat.div_lt_of_lt_mul hi
  have hcut : ∀ r < 8, r ≠ 0 → ∀ t < 8,
      ((0xff : UInt8) <<< UInt8.ofNat (8 - r)).toNat.testBit (7 - t) = decide (t < r) := by
    decide
  rw [mask, bit_ofFn _ hbyte, bit_eq key hbyte]
  by_cases hlt : i / 8 < depth / 8
  · rw [if_pos hlt, decide_eq_true (by omega), Bool.true_and]
  by_cases heq : i / 8 = depth / 8 ∧ depth % 8 ≠ 0
  · have hdec : decide (i % 8 < depth % 8) = decide (i < depth) := decide_eq_decide.mpr (by omega)
    rw [if_neg hlt, if_pos heq, UInt8.toNat_and, Nat.testBit_and,
      hcut _ (Nat.mod_lt _ (by decide)) heq.2 _ (Nat.mod_lt _ (by decide)), hdec, Bool.and_comm]
  · rw [if_neg hlt, if_neg heq, decide_eq_false (by omega), Bool.false_and, UInt8.toNat_zero,
      Nat.zero_testBit]

/-- The first bits stay, the others are 1. -/
theorem bit_fill (lo : Bytes32) (depth : ℕ) {i : ℕ} (hi : i < DEPTH) :
    bit (fill lo depth) i = (decide (depth ≤ i) || bit lo i) := by
  have hbyte : i / 8 < 32 := Nat.div_lt_of_lt_mul hi
  have hcut : ∀ r < 8, ∀ t < 8,
      ((0xff : UInt8) >>> UInt8.ofNat r).toNat.testBit (7 - t) = decide (r ≤ t) := by
    decide
  have hones : ∀ t < 8, (0xff : UInt8).toNat.testBit (7 - t) = true := by decide
  rw [fill, bit_ofFn _ hbyte, bit_eq lo hbyte]
  by_cases hlt : i / 8 < depth / 8
  · rw [if_pos hlt, decide_eq_false (by omega), Bool.false_or]
  by_cases heq : i / 8 = depth / 8 ∧ depth % 8 ≠ 0
  · have hdec : decide (depth % 8 ≤ i % 8) = decide (depth ≤ i) := decide_eq_decide.mpr (by omega)
    rw [if_neg hlt, if_pos heq, UInt8.toNat_or, Nat.testBit_or,
      hcut _ (Nat.mod_lt _ (by decide)) _ (Nat.mod_lt _ (by decide)), hdec, Bool.or_comm]
  · rw [if_neg hlt, if_neg heq, decide_eq_true (by omega), Bool.true_or,
      hones _ (Nat.mod_lt _ (by decide))]

/-- The byte the two bit updates put in: one bit of byte `d / 8`. -/
theorem testBit_one_shiftLeft : ∀ d < 8, ∀ t < 8,
    ((1 : UInt8) <<< UInt8.ofNat (7 - d)).toNat.testBit (7 - t) = decide (t = d) := by
  decide

/-- One bit changes. -/
theorem bit_flipBit (key : Bytes32) (d : ℕ) {i : ℕ} (hi : i < DEPTH) :
    bit (flipBit key d) i = (bit key i ^^ decide (i = d)) := by
  have hbyte : i / 8 < 32 := Nat.div_lt_of_lt_mul hi
  rw [flipBit, bit_ofFn _ hbyte, bit_eq key hbyte]
  by_cases heq : i / 8 = d / 8
  · have hdec : decide (i % 8 = d % 8) = decide (i = d) := decide_eq_decide.mpr (by omega)
    rw [if_pos heq, UInt8.toNat_xor, Nat.testBit_xor,
      testBit_one_shiftLeft _ (Nat.mod_lt _ (by decide)) _ (Nat.mod_lt _ (by decide)), hdec]
  · rw [if_neg heq, decide_eq_false (by omega), Bool.xor_false]

/-- One bit is set. -/
theorem bit_setBit (key : Bytes32) (d : ℕ) {i : ℕ} (hi : i < DEPTH) :
    bit (setBit key d) i = (bit key i || decide (i = d)) := by
  have hbyte : i / 8 < 32 := Nat.div_lt_of_lt_mul hi
  rw [setBit, bit_ofFn _ hbyte, bit_eq key hbyte]
  by_cases heq : i / 8 = d / 8
  · have hdec : decide (i % 8 = d % 8) = decide (i = d) := decide_eq_decide.mpr (by omega)
    rw [if_pos heq, UInt8.toNat_or, Nat.testBit_or,
      testBit_one_shiftLeft _ (Nat.mod_lt _ (by decide)) _ (Nat.mod_lt _ (by decide)), hdec]
  · rw [if_neg heq, decide_eq_false (by omega), Bool.or_false]

/-! ## Names of nodes -/

variable {k l p : Bytes32} {d : ℕ}

/-- A name has the path of the key. -/
theorem path_mask (hd : d ≤ DEPTH) (k : Bytes32) : path d (mask k d) = path d k := by
  refine path_eq_iff.mpr fun i hi => ?_
  rw [bit_mask k d (hi.trans_le hd), decide_eq_true hi, Bool.true_and]

/-- Two keys have one name at a depth when they go the same way down to it. -/
theorem mask_eq_iff (hd : d ≤ DEPTH) : mask k d = mask l d ↔ path d k = path d l := by
  constructor
  · intro h
    rw [← path_mask hd k, h, path_mask hd]
  · intro h
    refine key_ext fun i hi => ?_
    rw [bit_mask k d hi, bit_mask l d hi]
    by_cases hid : i < d
    · rw [path_eq_iff.mp h i hid]
    · rw [decide_eq_false hid, Bool.false_and, Bool.false_and]

/-- A name is its own name. -/
theorem mask_mask (hd : d ≤ DEPTH) (k : Bytes32) : mask (mask k d) d = mask k d :=
  (mask_eq_iff hd).mpr (path_mask hd k)

/-- The sibling differs in the last direction. -/
theorem path_flipBit (hd : d < DEPTH) (k : Bytes32) :
    path (d + 1) (flipBit (mask k (d + 1)) d) = path d k ++ [!bit k d] := by
  rw [path_succ]
  have hbelow : path d (flipBit (mask k (d + 1)) d) = path d k := by
    refine path_eq_iff.mpr fun i hi => ?_
    rw [bit_flipBit _ _ (hi.trans hd), bit_mask _ _ (hi.trans hd), decide_eq_true (by omega),
      decide_eq_false hi.ne, Bool.true_and, Bool.xor_false]
  have hat : bit (flipBit (mask k (d + 1)) d) d = !bit k d := by
    rw [bit_flipBit _ _ hd, bit_mask _ _ hd, decide_eq_true (Nat.lt_succ_self d),
      decide_eq_true rfl, Bool.true_and, Bool.xor_true]
  rw [hbelow, hat]

/-- The sibling's name is a name. -/
theorem mask_flipBit (d : ℕ) (k : Bytes32) :
    mask (flipBit (mask k (d + 1)) d) (d + 1) = flipBit (mask k (d + 1)) d := by
  refine key_ext fun i hi => ?_
  rw [bit_mask _ _ hi, bit_flipBit _ _ hi, bit_mask _ _ hi]
  by_cases hid : i < d + 1
  · rw [decide_eq_true hid, Bool.true_and]
  · rw [decide_eq_false hid, decide_eq_false (by omega), Bool.false_and, Bool.false_and,
      Bool.false_xor]

/-! ## The order of the keys -/

/-- Two keys part at some bit. -/
theorem exists_first_bit (h : k ≠ l) : ∃ i < DEPTH, path i k = path i l ∧ bit k i ≠ bit l i := by
  have hex : ∃ i, i < DEPTH ∧ bit k i ≠ bit l i := by
    by_contra hall
    push Not at hall
    exact h (key_ext hall)
  classical
  refine ⟨Nat.find hex, (Nat.find_spec hex).1, path_eq_iff.mpr fun j hj => ?_,
    (Nat.find_spec hex).2⟩
  by_contra hne
  exact Nat.find_min hex hj ⟨hj.trans (Nat.find_spec hex).1, hne⟩

/-- There the smaller one goes left. -/
theorem lt_of_bit {i : ℕ} (hi : i < DEPTH) (h : path i k = path i l) (hk : bit k i = false)
    (hl : bit l i = true) : k < l := by
  have hbyte : i / 8 < 32 := Nat.div_lt_of_lt_mul hi
  have hbits := path_eq_iff.mp h
  rw [bit_eq _ hbyte] at hk hl
  refine lt_def.mpr (List.lt_iff_exists.mpr (.inr ⟨i / 8, by simpa using hbyte,
    by simpa using hbyte, fun j hj => ?_, ?_⟩))
  · have hj32 : j < 32 := hj.trans hbyte
    have hbyteEq : k.get ⟨j, hj32⟩ = l.get ⟨j, hj32⟩ := by
      refine byte_ext fun t ht => ?_
      rw [testBit_get k hj32 ht, testBit_get l hj32 ht, hbits _ (by omega)]
    simpa [List.Vector.get_eq_get_toList] using congrArg UInt8.toNat hbyteEq
  · have hlt : (k.get ⟨i / 8, hbyte⟩).toNat < (l.get ⟨i / 8, hbyte⟩).toNat := by
      refine Nat.lt_of_testBit (7 - i % 8) hk hl fun t ht => ?_
      by_cases ht8 : t < 8
      · rw [testBit_get k hbyte ht8, testBit_get l hbyte ht8, hbits _ (by omega)]
      · have hpow : 2 ^ 8 ≤ 2 ^ t := Nat.pow_le_pow_right (by decide) (by omega)
        rw [Nat.testBit_lt_two_pow (lt_of_lt_of_le (UInt8.toNat_lt _) hpow),
          Nat.testBit_lt_two_pow (lt_of_lt_of_le (UInt8.toNat_lt _) hpow)]
    simpa [List.Vector.get_eq_get_toList] using hlt

/-- The order of the keys is the order of their paths. -/
theorem lt_iff_bit : k < l ↔
    ∃ i < DEPTH, path i k = path i l ∧ bit k i = false ∧ bit l i = true := by
  constructor
  · intro hlt
    obtain ⟨i, hi, hpath, hne⟩ := exists_first_bit hlt.ne
    cases hk : bit k i with
    | false => exact ⟨i, hi, hpath, hk, by simpa [hk] using hne.symm⟩
    | true =>
      have hl : bit l i = false := by simpa [hk] using hne.symm
      exact absurd hlt (lt_of_bit hi hpath.symm hl hk).not_gt
  · rintro ⟨i, hi, hpath, hk, hl⟩
    exact lt_of_bit hi hpath hk hl

/-- The keys from a name to the same with every further bit set are those below the node. -/
theorem mem_range_iff (hd : d ≤ DEPTH) :
    (mask p d ≤ k ∧ k ≤ fill (mask p d) d) ↔ path d k = path d p := by
  constructor
  · rintro ⟨hlo, hhi⟩
    by_contra hne
    have hkp : mask k d ≠ mask p d := fun h => hne ((mask_eq_iff hd).mp h)
    obtain ⟨i, hi, hpath, hbit⟩ := exists_first_bit hkp
    have hid : i < d := by
      by_contra hge
      rw [bit_mask k d hi, bit_mask p d hi, decide_eq_false hge] at hbit
      exact hbit rfl
    have hbelow : ∀ j < i, bit k j = bit p j := by
      intro j hj
      have hb := path_eq_iff.mp hpath j hj
      rwa [bit_mask k d (hj.trans hi), bit_mask p d (hj.trans hi), decide_eq_true (hj.trans hid),
        Bool.true_and, Bool.true_and] at hb
    rw [bit_mask k d hi, bit_mask p d hi, decide_eq_true hid, Bool.true_and, Bool.true_and] at hbit
    cases hk : bit k i with
    | false =>
      -- below the range: the first bit that differs is set in its lower end
      refine absurd hlo (not_le_of_gt (lt_of_bit hi (path_eq_iff.mpr fun j hj => ?_) hk ?_))
      · rw [bit_mask p d (hj.trans hi), decide_eq_true (hj.trans hid), Bool.true_and, hbelow j hj]
      · rw [bit_mask p d hi, decide_eq_true hid, Bool.true_and]
        simpa [hk] using hbit.symm
    | true =>
      refine absurd hhi (not_le_of_gt (lt_of_bit hi (path_eq_iff.mpr fun j hj => ?_) ?_ hk))
      · rw [bit_fill _ d (hj.trans hi), bit_mask p d (hj.trans hi),
          decide_eq_false (hj.trans hid).not_ge, decide_eq_true (hj.trans hid), Bool.false_or,
          Bool.true_and, hbelow j hj]
      · rw [bit_fill _ d hi, bit_mask p d hi, decide_eq_false hid.not_ge, decide_eq_true hid,
          Bool.false_or, Bool.true_and]
        simpa [hk] using hbit.symm
  · intro h
    refine ⟨le_of_not_gt fun hlt => ?_, le_of_not_gt fun hlt => ?_⟩
    · obtain ⟨i, hi, -, hk, hbit⟩ := lt_iff_bit.mp hlt
      rw [bit_mask p d hi, Bool.and_eq_true, decide_eq_true_iff] at hbit
      rw [path_eq_iff.mp h i hbit.1, hbit.2] at hk
      cases hk
    · obtain ⟨i, hi, -, hbit, hk⟩ := lt_iff_bit.mp hlt
      rw [bit_fill _ d hi, bit_mask p d hi, Bool.or_eq_false_iff, decide_eq_false_iff_not] at hbit
      have hid : i < d := by omega
      rw [decide_eq_true hid, Bool.true_and] at hbit
      rw [path_eq_iff.mp h i hid, hbit.2] at hk
      cases hk

end Smt
end Hazync
