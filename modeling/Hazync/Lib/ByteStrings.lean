import Mathlib.Data.Nat.ModEq
import Mathlib.Data.List.Basic
import Mathlib.Data.Vector.Basic
import Mathlib.Tactic.Common

/-!
# Byte strings

Little-endian fields of a fixed width, and how a concatenation of fixed-width fields is taken
apart again: two equal strings that start with fields of one width agree in those fields and in
what follows them.

## Taking preimages apart

What is hashed is a concatenation of fields. That two records have the same hash only if they are
the same needs two things: the hash must not collide, and the fields must be readable from the
concatenation. The second is what this file is for. The lemmas all have one form: two strings that
start with a field of the same kind, and are equal, have equal fields and equal rests. They are
applied one after the other, from the front.

A field of fixed width can be told from what follows by its width. A field of variable length has
its length before it, in four bytes; so it can be read back only where the length fits, and the
lemma on `lengthPrefixed_append_inj` says so. Lists are read element by element, behind a count.

The last section is on how bytes are shown. The programs compare hashes as strings of hexadecimal
digits as often as they compare the bytes, and since `hex` is one-to-one, this is the same.
-/

namespace ByteStrings

abbrev Bytes := List UInt8

/-- Thirty-two bytes. -/
abbrev Bytes32 := List.Vector UInt8 32

/-- The low `n` bytes of `v`, least significant first. -/
def le : ℕ → ℕ → Bytes
  | 0, _ => []
  | n + 1, v => UInt8.ofNat v :: le n (v / 256)

/-- The number with these bytes, least significant first. -/
def ofLe : Bytes → ℕ
  | [] => 0
  | b :: bs => b.toNat + 256 * ofLe bs

/-- `b[lo..hi]`, for a string that is long enough. -/
def slice (b : Bytes) (lo hi : ℕ) : Bytes := (b.drop lo).take (hi - lo)

/-- `b[lo..hi]`, which panics where the string ends before. -/
def slice? (b : Bytes) (lo hi : ℕ) : Option Bytes :=
  if lo ≤ hi ∧ hi ≤ b.length then some (slice b lo hi) else none

/-- A field has the width that it is written with. -/
@[simp] theorem length_le (n v : ℕ) : (le n v).length = n := by
  induction n generalizing v with
  | zero => rfl
  | succ n ih => rw [le, List.length_cons, ih]

/-- What is read back is what was written, as far as it fits. -/
theorem ofLe_le (n v : ℕ) : ofLe (le n v) = v % 256 ^ n := by
  induction n generalizing v with
  | zero => rw [le, ofLe, pow_zero, Nat.mod_one]
  | succ n ih =>
    rw [le, ofLe, ih, UInt8.toNat_ofNat', pow_succ' 256 n, Nat.mod_mul]

/-- So many bytes are less than the power of 256. -/
theorem ofLe_lt (b : Bytes) : ofLe b < 256 ^ b.length := by
  induction b with
  | nil => exact Nat.one_pos
  | cons x b ih =>
    have hx := x.toNat_lt
    rw [ofLe, List.length_cons, pow_succ]
    omega

/-- Bytes are those of the number they make. -/
theorem le_ofLe (b : Bytes) : le b.length (ofLe b) = b := by
  induction b with
  | nil => rfl
  | cons x b ih =>
    have hx := x.toNat_lt
    rw [List.length_cons, le, ofLe, Nat.add_mul_div_left _ _ (by decide), Nat.div_eq_of_lt hx,
      Nat.zero_add, ih]
    congr 1
    apply UInt8.toNat_inj.mp
    rw [UInt8.toNat_ofNat', Nat.add_mul_mod_self_left, Nat.mod_eq_of_lt hx]

/-- Numbers that fit a field are told apart. -/
theorem le_inj {n v w : ℕ} (hv : v < 256 ^ n) (hw : w < 256 ^ n) (h : le n v = le n w) :
    v = w := by
  have hmod := congrArg ofLe h
  rwa [ofLe_le, ofLe_le, Nat.mod_eq_of_lt hv, Nat.mod_eq_of_lt hw] at hmod

/-- A field depends on its number as far as the width reaches. -/
theorem le_congr {n v w : ℕ} (h : v % 256 ^ n = w % 256 ^ n) : le n v = le n w := by
  have key (u : ℕ) : le n u = le n (u % 256 ^ n) := by
    have := le_ofLe (le n u)
    rwa [length_le, ofLe_le, eq_comm] at this
  rw [key v, key w, h]

/-- A 32-bit word as four bytes. -/
def le32 (x : UInt32) : Bytes := le 4 x.toNat

/-- A 64-bit word as eight. -/
def le64 (x : UInt64) : Bytes := le 8 x.toNat

@[simp] theorem length_le32 (x : UInt32) : (le32 x).length = 4 := length_le 4 _

@[simp] theorem length_le64 (x : UInt64) : (le64 x).length = 8 := length_le 8 _

@[simp] theorem ofNat_ofLe_le32 (x : UInt32) : UInt32.ofNat (ofLe (le32 x)) = x := by
  rw [le32, ofLe_le, Nat.mod_eq_of_lt (show x.toNat < 256 ^ 4 from x.toNat_lt), UInt32.ofNat_toNat]

@[simp] theorem ofNat_ofLe_le64 (x : UInt64) : UInt64.ofNat (ofLe (le64 x)) = x := by
  rw [le64, ofLe_le, Nat.mod_eq_of_lt (show x.toNat < 256 ^ 8 from x.toNat_lt), UInt64.ofNat_toNat]

/-- Four bytes are those of the number they make. -/
theorem le32_ofLe {b : Bytes} (h : b.length = 4) : le32 (UInt32.ofNat (ofLe b)) = b := by
  have hlt : ofLe b < 2 ^ 32 := lt_of_lt_of_eq (ofLe_lt b) (by rw [h]; rfl)
  rw [le32, UInt32.toNat_ofNat', Nat.mod_eq_of_lt hlt, ← h, le_ofLe]

/-- Eight bytes are those of the number they make. -/
theorem le64_ofLe {b : Bytes} (h : b.length = 8) : le64 (UInt64.ofNat (ofLe b)) = b := by
  have hlt : ofLe b < 2 ^ 64 := lt_of_lt_of_eq (ofLe_lt b) (by rw [h]; rfl)
  rw [le64, UInt64.toNat_ofNat', Nat.mod_eq_of_lt hlt, ← h, le_ofLe]

/-- Different words are different bytes. -/
theorem le32_injective : Function.Injective le32 := fun x y h =>
  UInt32.toNat_inj.mp (le_inj x.toNat_lt y.toNat_lt h)

theorem le64_injective : Function.Injective le64 := fun x y h =>
  UInt64.toNat_inj.mp (le_inj x.toNat_lt y.toNat_lt h)

/-! ## Reading at an offset -/

/-- A field that starts where `pre` ends. -/
theorem slice?_field {b x : Bytes} (pre post : Bytes) {lo hi : ℕ} (hb : b = pre ++ (x ++ post))
    (hlo : lo = pre.length) (hhi : hi = pre.length + x.length) : slice? b lo hi = some x := by
  subst hb hlo hhi
  have hle : pre.length + x.length ≤ (pre ++ (x ++ post)).length := by
    rw [List.length_append, List.length_append]
    omega
  rw [slice?, if_pos ⟨Nat.le_add_right _ _, hle⟩, slice, List.drop_left,
    Nat.add_sub_cancel_left, List.take_left]

/-- A string is its first bytes and the others. -/
theorem exists_split {b : Bytes} {n : ℕ} (h : n ≤ b.length) :
    ∃ x y, b = x ++ y ∧ x.length = n :=
  ⟨b.take n, b.drop n, (List.take_append_drop n b).symm, List.length_take_of_le h⟩

/-! ## Taking a concatenation apart -/

/-- A word is told from what follows it. -/
theorem le32_append_inj {x y : UInt32} {s t : Bytes} (h : le32 x ++ s = le32 y ++ t) :
    x = y ∧ s = t := by
  obtain ⟨hx, hs⟩ := List.append_inj h (by simp)
  exact ⟨le32_injective hx, hs⟩

theorem le64_append_inj {x y : UInt64} {s t : Bytes} (h : le64 x ++ s = le64 y ++ t) :
    x = y ∧ s = t := by
  obtain ⟨hx, hs⟩ := List.append_inj h (by simp)
  exact ⟨le64_injective hx, hs⟩

/-- So is a hash. -/
theorem bytes32_append_inj {x y : Bytes32} {s t : Bytes}
    (h : x.toList ++ s = y.toList ++ t) : x = y ∧ s = t := by
  obtain ⟨hx, hs⟩ := List.append_inj h (by simp)
  exact ⟨List.Vector.toList_injective hx, hs⟩

/-- Two strings behind length prefixes, each shorter than the prefix can count. -/
theorem lengthPrefixed_append_inj {x y s t : Bytes} (hx : x.length < 2 ^ 32)
    (hy : y.length < 2 ^ 32)
    (h : le32 (UInt32.ofNat x.length) ++ (x ++ s) = le32 (UInt32.ofNat y.length) ++ (y ++ t)) :
    x = y ∧ s = t := by
  obtain ⟨hlen, hrest⟩ := le32_append_inj h
  refine List.append_inj hrest ?_
  have hnat := congrArg UInt32.toNat hlen
  rwa [UInt32.toNat_ofNat', UInt32.toNat_ofNat', Nat.mod_eq_of_lt hx, Nat.mod_eq_of_lt hy]
    at hnat

/-- Two runs of as many fields each, where a field tells itself from what follows it. -/
theorem flatMap_append_inj {α : Type*} {f : α → Bytes}
    (hf : ∀ {a b : α} {s t : Bytes}, f a ++ s = f b ++ t → a = b ∧ s = t) {xs ys : List α}
    {s t : Bytes} (hlen : xs.length = ys.length) (h : xs.flatMap f ++ s = ys.flatMap f ++ t) :
    xs = ys ∧ s = t := by
  induction xs generalizing ys with
  | nil =>
    obtain rfl := List.length_eq_zero_iff.mp hlen.symm
    exact ⟨rfl, h⟩
  | cons x xs ih =>
    cases ys with
    | nil => cases hlen
    | cons y ys =>
      rw [List.flatMap_cons, List.flatMap_cons, List.append_assoc, List.append_assoc] at h
      obtain ⟨rfl, hrest⟩ := hf h
      obtain ⟨rfl, hst⟩ := ih (Nat.succ.inj hlen) hrest
      exact ⟨rfl, hst⟩

/-- In lower case, as both languages print them. -/
def hexDigits : List Char :=
  ['0', '1', '2', '3', '4', '5', '6', '7', '8', '9', 'a', 'b', 'c', 'd', 'e', 'f']

/-- `{x:02x}` -/
def hexByte (b : UInt8) : List Char :=
  [hexDigits.getD (b.toNat / 16) '0', hexDigits.getD (b.toNat % 16) '0']

def hex (b : Bytes) : String := String.ofList (b.flatMap hexByte)

theorem hexDigits_inj : ∀ m n : Fin 16,
    hexDigits.getD m.val '0' = hexDigits.getD n.val '0' → m = n := by
  decide

/-- Two digits tell the byte. -/
theorem hexByte_injective : Function.Injective hexByte := by
  intro b c h
  obtain ⟨hhi, h⟩ := List.cons.inj h
  obtain ⟨hlo, -⟩ := List.cons.inj h
  have hb := b.toNat_lt
  have hc := c.toNat_lt
  have hdiv := hexDigits_inj ⟨b.toNat / 16, by omega⟩ ⟨c.toNat / 16, by omega⟩ hhi
  have hmod := hexDigits_inj ⟨b.toNat % 16, by omega⟩ ⟨c.toNat % 16, by omega⟩ hlo
  have hdiv := congrArg Fin.val hdiv
  have hmod := congrArg Fin.val hmod
  apply UInt8.toNat_inj.mp
  dsimp only at hdiv hmod
  omega

/-- The digits of a string tell the string. -/
theorem flatMap_hexByte_inj {a b : Bytes} (h : a.flatMap hexByte = b.flatMap hexByte) : a = b := by
  induction a generalizing b with
  | nil =>
    cases b with
    | nil => rfl
    | cons y b => cases h
  | cons x a ih =>
    cases b with
    | nil => cases h
    | cons y b =>
      rw [List.flatMap_cons, List.flatMap_cons] at h
      obtain ⟨hxy, hab⟩ := List.append_inj h rfl
      rw [hexByte_injective hxy, ih hab]

/-- Different strings are shown differently. -/
theorem hex_injective : Function.Injective hex := fun _ _ h =>
  flatMap_hexByte_inj (String.ofList_injective h)

end ByteStrings
