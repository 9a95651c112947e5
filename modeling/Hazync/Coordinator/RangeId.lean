import Mathlib.Data.List.DropRight
import Mathlib.Order.Basic
import Mathlib.Data.Nat.Basic

/-!
# Range ids (`canonical_range_id`, `parse_any_range`, `coordinator/server.py`)

A range goes by a string, `N` for one block and `lo-hi` for more. The tables and the stored proofs
are keyed by it. `parse_any_range` reads the numbers with Python's `int`, so other strings name the
same range; the canonical one reads back as its range.

## Two spellings of one range

The id that the coordinator writes itself is the canonical one: `str` of the block, or of the two
ends with a dash between them. What comes in from outside is read by splitting at the dashes and
calling `int` on each part, and `int` is generous: it takes a plus sign, leading zeros, underscores
between the digits, white space around them, and the digits of any script. So `" +05"` is block 5,
and is another key of the tables than `"5"`.

What the rest of the development needs is little: an accepted id has ordered ends below the tip, an
id is read the same under every tip that is high enough (`Denotes`), and the canonical ids of two
ranges differ. The zeros are spelled out because the theorems about ids ask whether some string that
a client may send is read, and not only whether one of ASCII is.
-/

namespace Hazync
namespace Coordinator

/-- `canonical_range_id` -/
def canonicalRangeId (lo hi : ℕ) : String :=
  if lo = hi then toString lo else toString lo ++ "-" ++ toString hi

/-- The white space of a string, as `strip` and `split` know it. -/
def isSpace (c : Char) : Bool :=
  let n := c.toNat
  (9 ≤ n ∧ n ≤ 13) ∨ (28 ≤ n ∧ n ≤ 32) ∨ (0x2000 ≤ n ∧ n ≤ 0x200a) ∨
    n ∈ [0x85, 0xa0, 0x1680, 0x2028, 0x2029, 0x202f, 0x205f, 0x3000]

/-- The white space that `int` strips. It leaves the characters of ASCII as they are, and the
    separators 28 to 31 are no white space of C. -/
def isIntSpace (c : Char) : Bool := isSpace c ∧ ¬ (28 ≤ c.toNat ∧ c.toNat ≤ 31)

/-- The zeros of Unicode, each followed by the nine other digits of its script. -/
def decimalZeros : List ℕ :=
  [0x30, 0x660, 0x6f0, 0x7c0, 0x966, 0x9e6, 0xa66, 0xae6, 0xb66, 0xbe6, 0xc66, 0xce6, 0xd66, 0xde6,
    0xe50, 0xed0, 0xf20, 0x1040, 0x1090, 0x17e0, 0x1810, 0x1946, 0x19d0, 0x1a80, 0x1a90, 0x1b50,
    0x1bb0, 0x1c40, 0x1c50, 0xa620, 0xa8d0, 0xa900, 0xa9d0, 0xa9f0, 0xaa50, 0xabf0, 0xff10, 0x104a0,
    0x10d30, 0x11066, 0x110f0, 0x11136, 0x111d0, 0x112f0, 0x11450, 0x114d0, 0x11650, 0x116c0,
    0x11730, 0x118e0, 0x11950, 0x11c50, 0x11d50, 0x11da0, 0x11f50, 0x16a60, 0x16ac0, 0x16b50,
    0x1d7ce, 0x1d7d8, 0x1d7e2, 0x1d7ec, 0x1d7f6, 0x1e140, 0x1e2f0, 0x1e4f0, 0x1e950, 0x1fbf0]

/-- The digit that a character is, in whatever script. Each has its ten digits in a row. -/
def digitValue (c : Char) : Option ℕ :=
  (decimalZeros.find? fun z => z ≤ c.toNat ∧ c.toNat < z + 10).map (c.toNat - ·)

/-- Digits after a digit, single underscores between them. -/
def intDigits (n : ℕ) : List Char → Option ℕ
  | [] => some n
  | '_' :: c :: cs => (digitValue c).bind fun d => intDigits (10 * n + d) cs
  | c :: cs => (digitValue c).bind fun d => intDigits (10 * n + d) cs

/-- `int` of a string that has no minus sign in it. There is no limit to the digits here; Python's
    own `int` raises from the 4301st on, leading zeros among them. -/
def int (s : List Char) : Option ℕ :=
  let s := (s.dropWhile isIntSpace).rdropWhile isIntSpace
  match if s.head? = some '+' then s.tail else s with
  | [] => none
  | c :: cs => (digitValue c).bind fun d => intDigits d cs

/-- `parse_any_range`, below `chain_tip()`. -/
def parseAnyRange (chainTip : ℕ) (rid : String) : Option (ℕ × ℕ) :=
  match (rid.toList.splitOn '-').mapM int with
  | some [n] => if n < chainTip then some (n, n) else none
  | some [lo, hi] => if hi < chainTip ∧ lo ≤ hi then some (lo, hi) else none
  | _ => none

variable {lo hi lo' hi' tip : ℕ} {rid : String}

/-- What is read is a range below the tip. -/
theorem parseAnyRange_bounds (h : parseAnyRange tip rid = some (lo, hi)) : lo ≤ hi ∧ hi < tip := by
  rw [parseAnyRange] at h
  split at h
  · obtain ⟨hlt, heq⟩ := Option.ite_none_right_eq_some.mp h
    cases heq
    exact ⟨le_refl _, hlt⟩
  · obtain ⟨⟨hlt, hle⟩, heq⟩ := Option.ite_none_right_eq_some.mp h
    cases heq
    exact ⟨hle, hlt⟩
  · cases h

/-! ## The canonical id reads back -/

/-- An ASCII digit has its own value. -/
theorem digitValue_of_isDigit {c : Char} (h : c.isDigit) : digitValue c = some (c.toNat - 48) := by
  obtain ⟨h0, h9⟩ := Char.isDigit_iff_toNat.mp h
  have hlt : c.toNat < 0x30 + 10 := Nat.lt_succ_of_le h9
  rw [digitValue, decimalZeros, List.find?_cons_of_pos (by exact decide_eq_true ⟨h0, hlt⟩)]
  rfl

/-- ASCII digits are read as the number that they write, after those that came before. -/
theorem intDigits_of_isDigit {l : List Char} (h : ∀ c ∈ l, c.isDigit) (n : ℕ) :
    intDigits n l = some (Nat.ofDigitChars 10 l n) := by
  induction l generalizing n with
  | nil => rfl
  | cons c cs ih =>
    have hc : c.isDigit := h c List.mem_cons_self
    have hne : c ≠ '_' := by
      rintro rfl
      exact absurd hc (by decide)
    rw [intDigits]
    · rw [digitValue_of_isDigit hc, Option.bind_some, ih fun x hx => h x (List.mem_cons_of_mem _ hx),
        Nat.ofDigitChars_cons]
      rfl
    · exact fun _ _ h _ => hne h

/-- No digit is white space, so nothing of a numeral is stripped. -/
theorem isSpace_of_isDigit {c : Char} (h : c.isDigit) : isSpace c = false := by
  obtain ⟨h0, h9⟩ := Char.isDigit_iff_toNat.mp h
  have h0 : 48 ≤ c.toNat := h0
  have h9 : c.toNat ≤ 57 := h9
  simp [isSpace]
  omega

theorem isIntSpace_of_isDigit {c : Char} (h : c.isDigit) : isIntSpace c = false := by
  simp [isIntSpace, isSpace_of_isDigit h]

theorem isDigit_of_mem {c : Char} {n : ℕ} (h : c ∈ Nat.toDigits 10 n) : c.isDigit :=
  Nat.isDigit_of_mem_toDigits (by decide) (by decide) h

/-- `int(str(n))` is `n`. -/
theorem int_toDigits (n : ℕ) : int (Nat.toDigits 10 n) = some n := by
  have hread := intDigits_of_isDigit (fun c hc => isDigit_of_mem (n := n) hc) 0
  rw [Nat.ofDigitChars_ten_toDigits] at hread
  have hfront : (Nat.toDigits 10 n).dropWhile isIntSpace = Nat.toDigits 10 n := by
    refine List.dropWhile_eq_self_iff.mpr fun hlen => ?_
    simp [isIntSpace_of_isDigit (isDigit_of_mem (List.getElem_mem hlen))]
  have hback : (Nat.toDigits 10 n).rdropWhile isIntSpace = Nat.toDigits 10 n := by
    refine List.rdropWhile_eq_self_iff.mpr fun hne => ?_
    simp [isIntSpace_of_isDigit (isDigit_of_mem (List.getLast_mem hne))]
  rw [int, hfront, hback]
  cases hdigits : Nat.toDigits 10 n with
  | nil => exact absurd hdigits Nat.toDigits_ne_nil
  | cons c cs =>
    have hc : c.isDigit := isDigit_of_mem (hdigits ▸ List.mem_cons_self)
    have hplus : c ≠ '+' := by
      rintro rfl
      exact absurd hc (by decide)
    rw [hdigits, intDigits] at hread
    · simpa [hplus] using hread
    · rintro _ _ rfl
      exact absurd hc (by decide)

/-- Two numbers that are written alike are the same. -/
theorem toString_inj {m n : ℕ} (h : toString m = toString n) : m = n := by
  rw [Nat.toString_eq_ofList_toDigits, Nat.toString_eq_ofList_toDigits] at h
  have hread := int_toDigits m
  rw [String.ofList_injective h, int_toDigits] at hread
  exact (Option.some.inj hread).symm

theorem dash_notMem (n : ℕ) : '-' ∉ Nat.toDigits 10 n :=
  fun h => absurd (isDigit_of_mem h) (by decide)

/-- `lo-hi` reads as its range, and does so where `lo` is `hi`. -/
theorem parseAnyRange_dashed (hle : lo ≤ hi) (hlt : hi < tip) :
    parseAnyRange tip (toString lo ++ "-" ++ toString hi) = some (lo, hi) := by
  have hsplit : (Nat.toDigits 10 lo ++ "-".toList ++ Nat.toDigits 10 hi).splitOn '-' =
      [Nat.toDigits 10 lo, Nat.toDigits 10 hi] := by
    rw [show "-".toList = ['-'] from rfl, List.append_assoc, List.singleton_append,
      List.splitOn_append_cons_self, List.splitOn_eq_singleton (dash_notMem lo),
      List.splitOn_eq_singleton (dash_notMem hi)]
    rfl
  rw [parseAnyRange]
  simp only [Nat.toString_eq_ofList_toDigits, String.toList_append, String.toList_ofList]
  rw [hsplit]
  simp [int_toDigits, hlt, hle]

/-- **The canonical id reads back as its range**, below every tip that is above it. -/
theorem parseAnyRange_canonicalRangeId (hle : lo ≤ hi) (hlt : hi < tip) :
    parseAnyRange tip (canonicalRangeId lo hi) = some (lo, hi) := by
  rw [canonicalRangeId]
  split_ifs with heq
  · subst heq
    rw [parseAnyRange, Nat.toString_eq_ofList_toDigits, String.toList_ofList,
      List.splitOn_eq_singleton (dash_notMem lo)]
    simp [int_toDigits, hlt]
  · exact parseAnyRange_dashed hle hlt

/-- The id reads as the range, under every tip above it. -/
def Denotes (rid : String) (lo hi : ℕ) : Prop :=
  ∀ tip, hi < tip → parseAnyRange tip rid = some (lo, hi)

/-- An id that is read under one tip is read as the same under any that is above its range. -/
theorem denotes_of_parseAnyRange (h : parseAnyRange tip rid = some (lo, hi)) : Denotes rid lo hi := by
  intro tip' htip
  obtain ⟨hle, -⟩ := parseAnyRange_bounds h
  rw [parseAnyRange] at h ⊢
  split at h
  · obtain ⟨-, heq⟩ := Option.ite_none_right_eq_some.mp h
    cases heq
    exact if_pos htip
  · obtain ⟨-, heq⟩ := Option.ite_none_right_eq_some.mp h
    cases heq
    exact if_pos ⟨htip, hle⟩
  · cases h

theorem denotes_canonicalRangeId (hle : lo ≤ hi) : Denotes (canonicalRangeId lo hi) lo hi :=
  fun _ => parseAnyRange_canonicalRangeId hle

/-- An id denotes at most one range. -/
theorem Denotes.unique (h : Denotes rid lo hi) (h' : Denotes rid lo' hi') : lo = lo' ∧ hi = hi' := by
  have hread := h (max hi hi' + 1) (Nat.lt_succ_of_le (le_max_left hi hi'))
  rw [h' _ (Nat.lt_succ_of_le (le_max_right hi hi'))] at hread
  exact Prod.mk.inj (Option.some.inj hread.symm)

/-- Different ranges have different canonical ids. -/
theorem canonicalRangeId_inj (hle : lo ≤ hi) (hle' : lo' ≤ hi')
    (h : canonicalRangeId lo hi = canonicalRangeId lo' hi') : lo = lo' ∧ hi = hi' := by
  have hread := denotes_canonicalRangeId hle
  rw [h] at hread
  exact hread.unique (denotes_canonicalRangeId hle')

example : parseAnyRange 100 " +05" = some (5, 5) ∧ canonicalRangeId 5 5 = "5" := by decide

end Coordinator
end Hazync
