import Hazync.Guest.Utreexo

/-!
# No delete goes out of range

The models of the two `delete`s read a shift or a difference of words as the machine does and leave
open whether it was in range. Here each is written again with every index, slice, shift, sum and
difference partial, in the order the source has them, and `none` where one of them is out of range.
For no accumulator, index or pair of proofs is it `none`: the checks that stand before an operation
are enough for it, in states no honest run reaches as well.

## What the other models leave out

Elsewhere a shift by 64 is 0 and a difference below 0 is 0 or wraps, as the type has it. That is a
faithful account of a release build, except where the source would panic: at an index past the end
of a vector, a slice that is too long, an `expect`. And with overflow checks on, each of the sums
and shifts may panic too. So the functions are written again, with `Option` at each such place and
in the order of the source, and shown to be the ones above.

Since the roots, the count and the proofs are arbitrary, the checks must do all the work. A proof of
64 siblings is caught by the comparison with the height of a tree, which is below 64; a count of 0
is caught before it is decremented.
-/

namespace Hazync
namespace Accumulator

open MerkleForest Word64

variable {H : Type}

namespace Stump

/-- `set_root`: `self.roots[height] = val` once `roots` has been made long enough. -/
def setRoot? (s : Stump H) (height : ℕ) (val : Option H) : Option (Stump H) :=
  let roots := if s.roots.length ≤ height then
    s.roots ++ List.replicate (height + 1 - s.roots.length) none else s.roots
  if height < roots.length then some { s with roots := roots.set height val } else none

/-- The loop of `tree_of`. The inner `none` is its own `None`, of the library, or `panic!`, of the
    guest. -/
def treeOfLoop? (n pos : UInt64) : ℕ → UInt64 → Option (Option (UInt64 × ℕ))
  | 0, _ => some none
  | h + 1, offset => do
    let bit ← shr? n h
    if bit &&& 1 = 1 then
      let size ← shl? 1 h
      let stop ← add? offset size
      if offset ≤ pos ∧ pos < stop then some (some (offset, h)) else treeOfLoop? n pos h stop
    else treeOfLoop? n pos h offset

/-- `tree_of`, partial. -/
def treeOf? (s : Stump H) (pos : UInt64) : Option (Option (UInt64 × ℕ)) :=
  treeOfLoop? s.numLeaves pos 64 0

/-- `remove_rightmost`, partial. -/
def removeRightmost? (s : Stump H) (proofLast : Proof H) : Option (Stump H) := do
  let s₁ ← s.setRoot? proofLast.siblings.length none
  let s₂ ← proofLast.siblings.zipIdx.foldlM (fun s p => s.setRoot? p.2 (some p.1)) s₁
  let n ← sub? s₂.numLeaves 1
  some { s₂ with numLeaves := n }

/-- `remove_rightmost` of the library, with its `debug_assert_eq!`. -/
def removeRightmostAsserted? (s : Stump H) (proofLast : Proof H) : Option (Stump H) := do
  let ones ← mask? proofLast.siblings.length
  if proofLast.position ≠ ones then none else s.removeRightmost? proofLast

/-- The search for the highest zero bit, partial. -/
def highestZero? (px : UInt64) : ℕ → Option ℕ
  | 0 => some 0
  | b + 1 => do
    let bit ← shr? px b
    if bit &&& 1 = 0 then some b else highestZero? px b

/-- `rightmost_ok`: the shift stands behind the two checks before it. -/
def rightmostOk? (s : Stump H) (p : Proof H) : Option Bool :=
  if p.siblings.length < 64 ∧ 0 < s.numLeaves then do
    let ones ← mask? p.siblings.length
    some (p.position = ones)
  else some false

/-- The library's `delete`. -/
def delete? [DecidableEq H] (parent : H → H → H) (s : Stump H) (i : UInt64)
    (proofI proofLast : Proof H) : Option (Bool × Stump H) :=
  if s.numLeaves = 0 then some (false, s)
  else if s.numLeaves ≤ i then some (false, s)
  else if ¬ s.verify parent proofI then some (false, s)
  else do
    let last ← sub? s.numLeaves 1
    if i = last then
      let ok ← s.rightmostOk? proofI
      if ¬ ok then some (false, s)
      else
        let s' ← s.removeRightmostAsserted? proofI
        some (true, s')
    else if ¬ s.verify parent proofLast then some (false, s)
    else
      let ok ← s.rightmostOk? proofLast
      if ¬ ok then some (false, s)
      else
        match ← s.treeOf? i with
        | none => some (false, s)
        | some (offI, hI) =>
          match ← s.treeOf? last with
          | none => some (false, s)
          | some (offLast, _) =>
            if offI ≠ offLast then
              let newRoot := fold parent proofI.position proofLast.leaf proofI.siblings
              let s₁ ← s.setRoot? hI (some newRoot)
              let s' ← s₁.removeRightmostAsserted? proofLast
              some (true, s')
            else
              let j ← highestZero? proofI.position hI
              if proofI.siblings.length < j then some (false, s)
              else
                let s₁ ← s.removeRightmostAsserted? proofLast
                let ones ← mask? j
                let sibs ← slicePrefix proofI.siblings j
                let s' ← s₁.setRoot? j
                  (some (fold parent (proofI.position &&& ones) proofLast.leaf sibs))
                some (true, s')

/-! ## Each operation stays in range -/

variable {s : Stump H} {p q : Proof H} {i : UInt64}

/-- A root is set in range: the list has been made long enough. -/
theorem setRoot?_eq (s : Stump H) (height : ℕ) (val : Option H) :
    s.setRoot? height val = some (s.setRoot height val) := by
  rw [setRoot?]
  refine if_pos ?_
  split
  · rw [List.length_append, List.length_replicate]
    omega
  · omega

theorem foldlM_setRoot?_eq (ps : List (H × ℕ)) (s : Stump H) :
    ps.foldlM (fun s p => s.setRoot? p.2 (some p.1)) s =
      some (ps.foldl (fun s p => s.setRoot p.2 (some p.1)) s) := by
  induction ps generalizing s with
  | nil => rfl
  | cons p ps ih => rw [List.foldlM_cons, setRoot?_eq, Option.bind_eq_bind, Option.bind_some, ih,
      List.foldl_cons]

/-- The offset is `n` with the bits below `h` cleared, so the sum is at most `n`. -/
theorem treeOfLoop?_eq {n pos : UInt64} {h : ℕ} {offset : UInt64} (hh : h ≤ 64)
    (hoff : offset.toNat = n.toNat / 2 ^ h * 2 ^ h) :
    treeOfLoop? n pos h offset = some (treeOfLoop n pos h offset) := by
  induction h generalizing offset with
  | zero => rfl
  | succ h ih =>
    rw [treeOfLoop?, treeOfLoop, shr?_of_lt n (by omega), Option.bind_eq_bind, Option.bind_some]
    by_cases hbit : (n >>> UInt64.ofNat h) &&& 1 = 1
    · have hodd := (bit_eq_one n (by omega)).mp hbit
      have hstop := toNat_offset_of_set (by omega) hoff hodd
      have hsum : offset.toNat + ((1 : UInt64) <<< UInt64.ofNat h).toNat < 2 ^ 64 := by
        have hle := Nat.div_mul_le_self n.toNat (2 ^ h)
        have hn := n.toNat_lt
        rw [hoff, toNat_one_shiftLeft (by omega)]
        have hsplit : n.toNat / 2 ^ (h + 1) * 2 ^ (h + 1) + 2 ^ h = n.toNat / 2 ^ h * 2 ^ h := by
          rw [pow_succ, ← Nat.div_div_eq_div_mul, mul_comm (2 ^ h) 2, ← mul_assoc, ← Nat.succ_mul]
          congr 1
          omega
        omega
      rw [if_pos hbit, if_pos hbit, shl?_of_lt 1 (by omega), Option.bind_some, add?_of_lt hsum,
        Option.bind_some]
      dsimp only
      by_cases hin : offset ≤ pos ∧ pos < offset + (1 : UInt64) <<< UInt64.ofNat h
      · rw [if_pos hin, if_pos hin]
      · rw [if_neg hin, if_neg hin]
        exact ih (by omega) hstop
    · have heven := mt (bit_eq_one n (by omega)).mpr hbit
      rw [if_neg hbit, if_neg hbit]
      exact ih (by omega) (toNat_offset_of_clear hoff (by omega))

/-- The search for a tree stays in range. -/
theorem treeOf?_eq (s : Stump H) (pos : UInt64) : s.treeOf? pos = some (s.treeOf pos) :=
  treeOfLoop?_eq le_rfl (toNat_zero_offset _)

/-- The tree `tree_of` names does not start past the position. -/
theorem treeOfLoop_le {n pos : UInt64} {h : ℕ} {offset off : UInt64} {k : ℕ}
    (heq : treeOfLoop n pos h offset = some (off, k)) : off ≤ pos := by
  induction h generalizing offset with
  | zero => simp [treeOfLoop] at heq
  | succ h ih =>
    rw [treeOfLoop] at heq
    split at heq
    · dsimp only at heq
      split at heq
      · rename_i hin
        obtain ⟨rfl, -⟩ := Prod.mk.inj (Option.some.inj heq)
        exact hin.1
      · exact ih heq
    · exact ih heq

theorem treeOf_le {pos off : UInt64} {k : ℕ} (h : s.treeOf pos = some (off, k)) : off ≤ pos :=
  treeOfLoop_le h

theorem one_le_of_ne_zero {n : UInt64} (hn : n ≠ 0) : 1 ≤ n := by
  rw [UInt64.le_iff_toNat_le]
  exact Nat.one_le_iff_ne_zero.mpr fun h0 => hn (UInt64.toNat_inj.mp h0)

/-- Where there is a leaf, removing the last stays in range. -/
theorem removeRightmost?_eq (hn : s.numLeaves ≠ 0) (p : Proof H) :
    s.removeRightmost? p = some (s.removeRightmost p) := by
  rw [removeRightmost?, setRoot?_eq, Option.bind_eq_bind, Option.bind_some, foldlM_setRoot?_eq,
    Option.bind_eq_bind, Option.bind_some, foldl_setRoot_numLeaves, setRoot_numLeaves,
    sub?_of_le (one_le_of_ne_zero hn), Option.bind_some, removeRightmost,
    foldl_setRoot_numLeaves, setRoot_numLeaves]

/-- The shift of the check stands behind what keeps it in range. -/
theorem rightmostOk?_eq (s : Stump H) (p : Proof H) :
    s.rightmostOk? p = some (s.rightmostOk p) := by
  rw [rightmostOk?]
  split
  · rename_i h
    rw [mask?_of_lt h.1, Option.bind_eq_bind, Option.bind_some]
    simp [rightmostOk, h]
  · rename_i h
    congr 1
    simp only [rightmostOk, ← and_assoc, decide_eq_false (fun hc => h (And.left hc))]

/-- What `rightmost_ok` let by stands under the assertion. -/
theorem removeRightmostAsserted?_eq {s' : Stump H} (hok : s.rightmostOk p = true)
    (hn : s'.numLeaves = s.numLeaves) :
    s'.removeRightmostAsserted? p = some (s'.removeRightmost p) := by
  rw [rightmostOk, decide_eq_true_iff] at hok
  obtain ⟨hlen, hpos, heq⟩ := hok
  have hne : s'.numLeaves ≠ 0 := by rw [hn]; exact (UInt64.pos_iff_ne_zero.mp hpos)
  rw [removeRightmostAsserted?, mask?_of_lt hlen, Option.bind_eq_bind, Option.bind_some,
    if_neg (not_not.mpr heq), removeRightmost?_eq hne]

/-- The search for a zero bit stays in range. -/
theorem highestZero?_eq (px : UInt64) {h : ℕ} (hh : h ≤ 64) :
    highestZero? px h = some (highestZero px h) := by
  induction h with
  | zero => rfl
  | succ b ih =>
    rw [highestZero?, highestZero, shr?_of_lt px (by omega), Option.bind_eq_bind, Option.bind_some]
    split
    · rfl
    · exact ih (by omega)

theorem highestZero_le (px : UInt64) (h : ℕ) : highestZero px h ≤ h - 1 := by
  induction h with
  | zero => exact le_rfl
  | succ b ih =>
    rw [highestZero]
    split <;> omega

/-- **The partial delete of the library is the total one.** -/
theorem delete?_eq [DecidableEq H] (parent : H → H → H) (s : Stump H) (i : UInt64)
    (p q : Proof H) : s.delete? parent i p q = s.delete parent i p q := by
  -- both take the same branches, and no checked operation of the left fails in its branch
  rw [delete?, delete]
  split
  · rfl
  rename_i hn
  split
  · rfl
  split
  · rfl
  rw [sub?_of_le (one_le_of_ne_zero hn), Option.bind_eq_bind, Option.bind_some]
  dsimp only
  split
  -- the last leaf is removed
  · rw [rightmostOk?_eq, Option.bind_eq_bind, Option.bind_some]
    split
    · rfl
    · rename_i hok
      rw [removeRightmostAsserted?_eq (not_not.mp hok) rfl]
      rfl
  split
  · rfl
  rw [rightmostOk?_eq, Option.bind_eq_bind, Option.bind_some]
  split
  · rfl
  rename_i hok
  have hok := not_not.mp hok
  rw [treeOf?_eq, treeOf?_eq, Option.bind_eq_bind, Option.bind_some]
  cases hI : s.treeOf i with
  | none => rfl
  | some tI =>
    obtain ⟨offI, hI'⟩ := tI
    have h64 := (treeOf_spec hI).1
    cases hL : s.treeOf (s.numLeaves - 1) with
    | none => rfl
    | some tL =>
      obtain ⟨offL, hL'⟩ := tL
      dsimp only [Option.bind_eq_bind, Option.bind_some]
      -- the two leaves stand in different trees, or in one
      by_cases hoff : offI ≠ offL
      · rw [if_pos hoff, if_pos hoff, setRoot?_eq, Option.bind_some,
          removeRightmostAsserted?_eq hok (setRoot_numLeaves s _ _), Option.bind_some]
      · have hj := highestZero_le p.position hI'
        rw [if_neg hoff, if_neg hoff, highestZero?_eq _ h64.le, Option.bind_some]
        by_cases hlen : p.siblings.length < highestZero p.position hI'
        · rw [if_pos hlen, if_pos hlen]
        · rw [if_neg hlen, if_neg hlen, removeRightmostAsserted?_eq hok rfl, Option.bind_some,
            mask?_of_lt (by omega), Option.bind_some, slicePrefix, if_pos (not_lt.mp hlen),
            Option.bind_some, setRoot?_eq]
          rfl

/-- It returns, and where it returns false it returns what it was given. -/
theorem delete_returns [DecidableEq H] (parent : H → H → H) (s : Stump H) (i : UInt64)
    (p q : Proof H) : ∃ b t, s.delete parent i p q = some (b, t) ∧ (b = false → t = s) := by
  have hreject : ∃ b t, some (false, s) = some (b, t) ∧ (b = false → t = s) :=
    ⟨false, s, rfl, fun _ => rfl⟩
  have haccept (t : Stump H) : ∃ b t', some (true, t) = some (b, t') ∧ (b = false → t' = s) :=
    ⟨true, t, rfl, fun hb => by cases hb⟩
  rw [delete]
  dsimp only
  split
  · exact hreject
  split
  · exact hreject
  split
  · exact hreject
  split
  · split
    · exact hreject
    · exact haccept _
  split
  · exact hreject
  split
  · exact hreject
  cases s.treeOf i with
  | none => exact hreject
  | some tI =>
    cases s.treeOf (s.numLeaves - 1) with
    | none => exact hreject
    | some tL =>
      dsimp only
      split
      · exact haccept _
      split
      · exact hreject
      · rename_i hlen
        rw [slicePrefix, if_pos (not_lt.mp hlen)]
        exact haccept _

end Stump
end Accumulator

namespace Guest

open Accumulator (Proof Stump fold)
open Word64

variable {H : Type}

/-- The guest's `delete`. -/
def Stump.delete? [DecidableEq H] (parent : H → H → H) (s : Stump H) (i : UInt64)
    (proofI proofLast : Proof H) : Option (Bool × Stump H) :=
  if s.numLeaves ≤ i then some (false, s)
  else do
    let (offChk, hChk) ← (← s.treeOf? i)
    let atI ← sub? i offChk
    if proofI.siblings.length ≠ hChk ∨ proofI.position ≠ atI then some (false, s)
    else if ¬ s.verify parent proofI then some (false, s)
    else
      let last ← sub? s.numLeaves 1
      if i = last then
        let s' ← s.removeRightmost? proofI
        some (true, s')
      else
        let (offL, hL) ← (← s.treeOf? last)
        let atLast ← sub? last offL
        if proofLast.siblings.length ≠ hL ∨ proofLast.position ≠ atLast then some (false, s)
        else if ¬ s.verify parent proofLast then some (false, s)
        else
          let (offI, hI) ← (← s.treeOf? i)
          let (offLast, _) ← (← s.treeOf? last)
          if offI ≠ offLast then
            let newRoot := fold parent proofI.position proofLast.leaf proofI.siblings
            let s₁ ← s.setRoot? hI (some newRoot)
            let s' ← s₁.removeRightmost? proofLast
            some (true, s')
          else
            let s₁ ← s.removeRightmost? proofLast
            let j ← Stump.highestZero? proofI.position hI
            let ones ← mask? j
            let sibs ← Stump.slicePrefix proofI.siblings j
            let s' ← s₁.setRoot? j
              (some (fold parent (proofI.position &&& ones) proofLast.leaf sibs))
            some (true, s')

/-! ## The two deletes -/

namespace Stump

variable {parent : H → H → H} {s t : Stump H} {i : UInt64} {p q : Proof H} {b : Bool}

/-- In a forest of any leaf count a position inside it has a tree, and its offset is no further. -/
theorem exists_treeOf {pos : UInt64} (h : pos < s.numLeaves) :
    ∃ off k, s.treeOf pos = some (off, k) ∧ off ≤ pos ∧ k < 64 := by
  obtain ⟨⟨off, k⟩, ht⟩ := Option.isSome_iff_exists.mp (Stump.treeOf_isSome h)
  exact ⟨off, k, ht, Stump.treeOf_le ht, (Stump.treeOf_spec ht).1⟩

/-- The last position of a forest that has a leaf. -/
theorem last_lt (h : i < s.numLeaves) : s.numLeaves ≠ 0 ∧ s.numLeaves - 1 < s.numLeaves := by
  have hpos : 0 < s.numLeaves.toNat :=
    Nat.lt_of_le_of_lt (Nat.zero_le _) (UInt64.lt_iff_toNat_lt.mp h)
  refine ⟨fun h0 => ?_, ?_⟩
  · rw [h0] at hpos
    exact absurd hpos (by decide)
  · rw [UInt64.lt_iff_toNat_lt, toNat_sub_one hpos]
    omega

/-- **The partial delete of the guest is the total one.** -/
theorem delete?_eq [DecidableEq H] (parent : H → H → H) (s : Stump H) (i : UInt64)
    (p q : Proof H) : delete? parent s i p q = delete parent s i p q := by
  rw [delete?, delete]
  by_cases hge : s.numLeaves ≤ i
  · rw [if_pos hge, if_pos hge]
  have hlt := UInt64.not_le.mp hge
  obtain ⟨hn, hlast⟩ := last_lt hlt
  obtain ⟨offI, hI, htI, hoffI, h64⟩ := exists_treeOf hlt
  obtain ⟨offL, hL, htL, hoffL, -⟩ := exists_treeOf hlast
  have hj := Stump.highestZero_le p.position hI
  rw [if_neg hge, if_neg hge]
  simp only [Stump.treeOf?_eq, htI, Option.bind_eq_bind, Option.bind_some, sub?_of_le hoffI]
  by_cases hpin : p.siblings.length ≠ hI ∨ p.position ≠ i - offI
  · rw [if_pos hpin, if_pos hpin]
  rw [if_neg hpin, if_neg hpin]
  have hlen : p.siblings.length = hI := not_not.mp fun h => hpin (.inl h)
  by_cases hv : ¬ s.verify parent p = true
  · rw [if_pos hv, if_pos hv]
  rw [if_neg hv, if_neg hv, sub?_of_le (Stump.one_le_of_ne_zero hn), Option.bind_some]
  by_cases heq : i = s.numLeaves - 1
  · rw [if_pos heq, if_pos heq, Stump.removeRightmost?_eq hn, Option.bind_some]
  rw [if_neg heq, if_neg heq]
  simp only [htL, Option.bind_some, sub?_of_le hoffL]
  by_cases hpin' : q.siblings.length ≠ hL ∨ q.position ≠ s.numLeaves - 1 - offL
  · rw [if_pos hpin', if_pos hpin']
  rw [if_neg hpin', if_neg hpin']
  by_cases hv' : ¬ s.verify parent q = true
  · rw [if_pos hv', if_pos hv']
  rw [if_neg hv', if_neg hv']
  by_cases hoff : offI ≠ offL
  · rw [if_pos hoff, if_pos hoff, Stump.setRoot?_eq, Option.bind_some,
      Stump.removeRightmost?_eq (by rwa [Stump.setRoot_numLeaves]), Option.bind_some]
  · rw [if_neg hoff, if_neg hoff, Stump.removeRightmost?_eq hn, Option.bind_some,
      Stump.highestZero?_eq _ h64.le, Option.bind_some, mask?_of_lt (by omega), Option.bind_some,
      Stump.slicePrefix, if_pos (by omega), Option.bind_some, Stump.setRoot?_eq]
    rfl

/-- It returns, and where it returns false it returns what it was given. -/
theorem delete_returns [DecidableEq H] (parent : H → H → H) (s : Stump H) (i : UInt64)
    (p q : Proof H) : ∃ b t, delete parent s i p q = some (b, t) ∧ (b = false → t = s) := by
  have hreject : ∃ b t, some (false, s) = some (b, t) ∧ (b = false → t = s) :=
    ⟨false, s, rfl, fun _ => rfl⟩
  have haccept (t : Stump H) : ∃ b t', some (true, t) = some (b, t') ∧ (b = false → t' = s) :=
    ⟨true, t, rfl, fun hb => by cases hb⟩
  rw [delete]
  by_cases hge : s.numLeaves ≤ i
  · rw [if_pos hge]
    exact hreject
  have hlt := UInt64.not_le.mp hge
  obtain ⟨offI, hI, htI, -, -⟩ := exists_treeOf hlt
  obtain ⟨offL, hL, htL, -, -⟩ := exists_treeOf (last_lt hlt).2
  have hj := Stump.highestZero_le p.position hI
  rw [if_neg hge]
  simp only [htI, htL, Option.bind_eq_bind, Option.bind_some]
  split
  · exact hreject
  rename_i hpin
  have hlen : p.siblings.length = hI := not_not.mp fun h => hpin (.inl h)
  split
  · exact hreject
  split
  · exact haccept _
  split
  · exact hreject
  split
  · exact hreject
  split
  · exact haccept _
  · rw [Stump.slicePrefix, if_pos (by omega)]
    exact haccept _

/-- **A delete stays in range, and a rejected one changes nothing.** Of the library and of the
guest, for any roots, leaf count, index and proofs: every shift, sum, difference, index and slice
is in range, and where the answer is false the accumulator is the one that was given. -/
theorem delete_never_panics [DecidableEq H] (parent : H → H → H) (s : Stump H) (i : UInt64)
    (p q : Proof H) :
    (∃ b t, s.delete? parent i p q = some (b, t) ∧ (b = false → t = s)) ∧
    (∃ b t, delete? parent s i p q = some (b, t) ∧ (b = false → t = s)) := by
  rw [Accumulator.Stump.delete?_eq, delete?_eq]
  exact ⟨Accumulator.Stump.delete_returns parent s i p q, delete_returns parent s i p q⟩

end Stump
end Guest
end Hazync
