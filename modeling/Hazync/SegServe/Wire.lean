import Hazync.Lib.ByteStrings
import Mathlib.Data.Nat.Bitwise

/-!
# The frames of the push transport

A frame is `[u32 index][u32 len][bytes]`. The index is a segment's, or carries in its top bits what
kind of work the frame is; how the coordinator routes a reply is read off those bits alone.

## Tags

One number of 32 bits says what a frame is. The five upper bits that are in use stand for a join, a
resolve, the last lift, a segment that is not to be lifted, and a hello. What is below them is the
number of the segment, or the level and the position of a join, or the number of a resolve. Nothing
keeps a number from reaching into the bits above, so each lemma has the bound under which it does
not.

A reply carries the tag of what it answers. The reader thread asks `isJob` first, and takes the
index of a segment with the bit of `NOLIFT_TAG` masked out. So for an index below `2 ^ 27` the tag
under which a segment went out is read back as that segment, and as the last one if it was sent as
such (`plain_segTag`, `segTag_and_nolift`).
-/

namespace Hazync.SegServe

open ByteStrings

/-- A join: the level and the position are below. -/
def JOIN_TAG : UInt32 := 0x80000000

/-- A resolve: its number is below. -/
def RESOLVE_TAG : UInt32 := 0x40000000

/-- The last segment, whose receipt is not to be lifted. -/
def NOLIFT_TAG : UInt32 := 0x20000000

/-- The lift of that receipt. -/
def LIFT_TAG : UInt32 := 0x10000000

/-- The first frame of a worker, with the name of its card. -/
def HELLO_TAG : UInt32 := 0x08000000

/-- The tag of the join at position `p` of level `l`. -/
def joinTag (l p : ℕ) : UInt32 := JOIN_TAG ||| (UInt32.ofNat l <<< 16) ||| UInt32.ofNat p

/-- The tag of the `k`-th resolve. -/
def resolveTag (k : ℕ) : UInt32 := RESOLVE_TAG ||| UInt32.ofNat k

/-- Is a reply under this index one to a job? -/
def isJob (i : UInt32) : Bool := i &&& (JOIN_TAG ||| RESOLVE_TAG ||| LIFT_TAG) != 0

/-- The tag as a number. -/
theorem toNat_joinTag {l p : ℕ} (hl : l < 2 ^ 15) (hp : p < 2 ^ 16) :
    (joinTag l p).toNat = 2 ^ 31 + (l * 2 ^ 16 + p) := by
  have hlow : (l <<< 16 ||| p) = l * 2 ^ 16 + p := by
    rw [← Nat.shiftLeft_add_eq_or_of_lt hp, Nat.shiftLeft_eq]
  have hhigh : (1 <<< 31 ||| (l * 2 ^ 16 + p)) = 1 <<< 31 + (l * 2 ^ 16 + p) :=
    (Nat.shiftLeft_add_eq_or_of_lt (by omega) 1).symm
  have hjoin : UInt32.toNat JOIN_TAG = 1 <<< 31 := rfl
  have hshift : (UInt32.ofNat l <<< 16).toNat = l <<< 16 := by
    rw [UInt32.toNat_shiftLeft, UInt32.toNat_ofNat', Nat.mod_eq_of_lt (a := l) (by omega)]
    rw [show UInt32.toNat 16 % 32 = 16 from rfl, Nat.shiftLeft_eq]
    exact Nat.mod_eq_of_lt (by omega)
  rw [joinTag, UInt32.toNat_or, UInt32.toNat_or, hjoin, hshift, UInt32.toNat_ofNat',
    Nat.mod_eq_of_lt (a := p) (by omega), Nat.or_assoc, hlow, hhigh, Nat.shiftLeft_eq, one_mul]

/-- The places of a tree that is not too high and not too wide have tags of their own. -/
theorem joinTag_inj {l p l' p' : ℕ} (hl : l < 2 ^ 15) (hp : p < 2 ^ 16) (hl' : l' < 2 ^ 15)
    (hp' : p' < 2 ^ 16) (h : joinTag l p = joinTag l' p') : l = l' ∧ p = p' := by
  have hnat := congrArg UInt32.toNat h
  rw [toNat_joinTag hl hp, toNat_joinTag hl' hp'] at hnat
  omega

/-- Bits, by a mask. -/
theorem or_and_distrib (x y z : UInt32) : (x ||| y) &&& z = (x &&& z) ||| (y &&& z) := by
  refine UInt32.toBitVec_inj.mp ?_
  rw [UInt32.toBitVec_and, UInt32.toBitVec_or, BitVec.and_or_distrib_right]
  rfl

/-- A tag with more bits set is still one of a job. -/
theorem isJob_or {t x : UInt32} (h : isJob t = true) : isJob (t ||| x) = true := by
  rw [isJob, bne_iff_ne] at h ⊢
  rw [or_and_distrib, Ne, UInt32.or_eq_zero_iff]
  exact fun hzero => h hzero.1

/-- A join is a job. -/
theorem isJob_joinTag (l p : ℕ) : isJob (joinTag l p) = true := isJob_or (isJob_or (by decide))

/-- So is a resolve. -/
theorem isJob_resolveTag (k : ℕ) : isJob (resolveTag k) = true := isJob_or (by decide)

/-- Is the tag one of a resolve? -/
def isResolve (i : UInt32) : Bool := i &&& RESOLVE_TAG != 0

/-- A resolve is seen by its bit. -/
theorem isResolve_resolveTag (k : ℕ) : isResolve (resolveTag k) = true := by
  rw [isResolve, bne_iff_ne, resolveTag, or_and_distrib, Ne, UInt32.or_eq_zero_iff]
  exact fun hzero => absurd hzero.1 (by decide)

/-- The tag of a join is not one of a resolve. -/
theorem isResolve_joinTag {l p : ℕ} (hl : l < 2 ^ 14) (hp : p < 2 ^ 16) :
    isResolve (joinTag l p) = false := by
  have hbit : (2 ^ 31 + (l * 2 ^ 16 + p)).testBit 30 = false := by
    rw [Nat.testBit_two_pow_add_gt (by omega)]
    exact Nat.testBit_lt_two_pow (by omega)
  have hand : joinTag l p &&& RESOLVE_TAG = 0 := by
    refine UInt32.toNat_inj.mp ?_
    rw [UInt32.toNat_and, toNat_joinTag (by omega) hp]
    show (2 ^ 31 + (l * 2 ^ 16 + p)) &&& 2 ^ 30 = 0
    rw [Nat.and_two_pow, hbit]
    rfl
  rw [isResolve, hand]
  rfl

/-- A join is not the lift. -/
theorem joinTag_ne_lift {l p : ℕ} (hl : l < 2 ^ 15) (hp : p < 2 ^ 16) : joinTag l p ≠ LIFT_TAG := by
  intro h
  have hnat := congrArg UInt32.toNat h
  rw [toNat_joinTag hl hp] at hnat
  have hlift : UInt32.toNat LIFT_TAG = 2 ^ 28 := rfl
  omega

/-! ## Segment indices -/

/-- The index a reply names. -/
def plain (i : UInt32) : ℕ := (i &&& ~~~NOLIFT_TAG).toNat

/-- The tag a segment goes out under, when `known` is the total if that is known. -/
def segTag (known : Option ℕ) (i : ℕ) : UInt32 :=
  if known = some (i + 1) then UInt32.ofNat i ||| NOLIFT_TAG else UInt32.ofNat i

/-- An index stays clear of a mask of high bits. -/
theorem ofNat_and_high {i m : ℕ} (hi : i < 2 ^ 27) {t : UInt32} (ht : t.toNat = 2 ^ 27 * m) :
    UInt32.ofNat i &&& t = 0 := by
  refine UInt32.toNat_inj.mp (Nat.eq_of_testBit_eq fun j => ?_)
  rw [UInt32.toNat_and, UInt32.toNat_ofNat', Nat.mod_eq_of_lt (by omega), Nat.testBit_and, ht,
    Nat.testBit_two_pow_mul]
  obtain hj | hj := Nat.lt_or_ge j 27
  · simp [Nat.not_le.mpr hj]
  · have hbit : i.testBit j = false :=
      Nat.testBit_lt_two_pow (lt_of_lt_of_le hi (Nat.pow_le_pow_right Nat.two_pos hj))
    simp [hbit]

variable {known : Option ℕ} {i : ℕ}

/-- Below bit 27 an index has no bit of a tag: a segment goes out under a tag of its own kind. -/
theorem isJob_segTag (hi : i < 2 ^ 27) : isJob (segTag known i) = false := by
  have hand : UInt32.ofNat i &&& (JOIN_TAG ||| RESOLVE_TAG ||| LIFT_TAG) = 0 :=
    ofNat_and_high hi (m := 26) rfl
  have hlift : NOLIFT_TAG &&& (JOIN_TAG ||| RESOLVE_TAG ||| LIFT_TAG) = 0 := rfl
  rw [isJob, segTag]
  split
  · rw [or_and_distrib, hand, hlift]
    rfl
  · rw [hand]
    rfl

/-- Only the last segment goes out under the tag of one that is not to be lifted. -/
theorem segTag_and_nolift (hi : i < 2 ^ 27) :
    segTag known i &&& NOLIFT_TAG ≠ 0 ↔ known = some (i + 1) := by
  have hand : UInt32.ofNat i &&& NOLIFT_TAG = 0 := ofNat_and_high hi (m := 4) rfl
  rw [segTag]
  split
  · next h =>
    rw [or_and_distrib, hand]
    exact iff_of_true (by decide) h
  · next h => exact iff_of_false (by rw [hand]; exact not_not.mpr rfl) h

/-- The index is read back. -/
theorem plain_segTag (hi : i < 2 ^ 27) : plain (segTag known i) = i := by
  have hand : UInt32.ofNat i &&& NOLIFT_TAG = 0 := ofNat_and_high hi (m := 4) rfl
  have hlift : NOLIFT_TAG &&& ~~~NOLIFT_TAG = 0 := rfl
  have hnot : UInt32.ofNat i &&& ~~~NOLIFT_TAG = UInt32.ofNat i := by
    have hsplit := or_and_distrib NOLIFT_TAG (~~~NOLIFT_TAG) (UInt32.ofNat i)
    rw [UInt32.or_not_self, UInt32.neg_one_and, UInt32.and_comm NOLIFT_TAG, hand,
      UInt32.zero_or, UInt32.and_comm] at hsplit
    exact hsplit.symm
  rw [plain, segTag]
  split
  · rw [or_and_distrib, hnot, hlift, UInt32.or_zero, UInt32.toNat_ofNat']
    exact Nat.mod_eq_of_lt (by omega)
  · rw [hnot, UInt32.toNat_ofNat']
    exact Nat.mod_eq_of_lt (by omega)

end Hazync.SegServe
