import Mathlib.Data.List.DropRight
import Mathlib.Data.List.Induction
import Hazync.Lib.MerkleForest
import Hazync.Lib.Word64

/-!
# The roots-only accumulator (`accumulator/src/lib.rs`, `prover/methods/guest/src/utreexo.rs`)

The library crate and the guest each hold a `Stump`, and the two files agree line for line on
everything here: `Proof`, `set_root`, `root_at`, `add`, `verify`, `fold`, `tree_of` and
`remove_rightmost`. They part in `delete` only, so `delete` is defined twice: the reference one
at the end of this file, the guest's hardened one in `Hazync.Guest.Utreexo`.

`parent` is a parameter throughout, over any type of hashes. A function that can panic returns
in `Option`, and `none` is the panic.

## What is modelled as what

Counts and positions are `u64` in the source and `UInt64` here, with the shifts and masks that the
code uses; the lemmas of this file turn them into division and remainder once (`treeOfLoop_spec`,
`highestZero_spec`), and no later proof sees a bit operation. A root vector may have `None` at its
end, and the source compares such vectors after trimming; `normalize` is that, and
`normalize_eq_iff` says that it compares the roots height by height.

Each operation has one lemma that says what it does to the root at *every* height, so a proof about
a sequence of operations is a sequence of rewrites.
-/

namespace Hazync
namespace Accumulator

open MerkleForest

variable {H : Type}

/-- A leaf's path to its tree root: the index *within its tree* and the siblings, bottom-up. -/
structure Proof (H : Type) where
  leaf : H
  position : UInt64
  siblings : List H
  deriving DecidableEq

/-- `roots[h]` is the root of the height-`h` tree, or `None`. -/
structure Stump (H : Type) where
  roots : List (Option H)
  numLeaves : UInt64
  deriving DecidableEq

/-- Trailing `None`s trimmed: what two root vectors are compared by. -/
def normalize (v : List (Option H)) : List (Option H) :=
  v.rdropWhile Option.isNone

/-- `if height >= v.len() { v.resize(height + 1, None) }; v[height] = val` -/
def setAt (v : List (Option H)) (height : ℕ) (val : Option H) : List (Option H) :=
  (if v.length ≤ height then v ++ List.replicate (height + 1 - v.length) none else v).set
    height val

/-- The loop of `fold` and of `compute_root`: left or right by the low bit of `pos`. -/
def fold (parent : H → H → H) (position : UInt64) (leaf : H) (siblings : List H) : H :=
  (siblings.foldl (fun (st : H × UInt64) sib =>
    (if st.2 &&& 1 = 0 then parent st.1 sib else parent sib st.1, st.2 >>> 1))
    (leaf, position)).1

def Proof.computeRoot (parent : H → H → H) (p : Proof H) : H :=
  fold parent p.position p.leaf p.siblings

namespace Stump

/-- `Stump::new()`: the empty accumulator. -/
def empty : Stump H := { roots := [], numLeaves := 0 }

def setRoot (s : Stump H) (height : ℕ) (val : Option H) : Stump H :=
  { s with roots := setAt s.roots height val }

def rootAt (s : Stump H) (height : ℕ) : Option H := (s.roots[height]?).join

/-- The carry loop of `add`, on the part of `roots` from the height it has reached: the root
    standing there is the left child of the merged parent, the incoming node the right one. -/
def carry (parent : H → H → H) (node : H) : List (Option H) → List (Option H)
  | some existing :: rest => none :: carry parent (parent existing node) rest
  | none :: rest => some node :: rest
  | [] => [some node]

def add (parent : H → H → H) (s : Stump H) (leaf : H) : Stump H :=
  { roots := carry parent leaf s.roots, numLeaves := s.numLeaves + 1 }

def verify [DecidableEq H] (parent : H → H → H) (s : Stump H) (proof : Proof H) : Bool :=
  s.rootAt proof.siblings.length = some (proof.computeRoot parent)

/-- The loop of `tree_of` over the heights below the given one, from `offset` on. -/
def treeOfLoop (n pos : UInt64) : ℕ → UInt64 → Option (UInt64 × ℕ)
  | 0, _ => none
  | h + 1, offset =>
    if (n >>> UInt64.ofNat h) &&& 1 = 1 then
      let size := (1 : UInt64) <<< UInt64.ofNat h
      if offset ≤ pos ∧ pos < offset + size then some (offset, h)
      else treeOfLoop n pos h (offset + size)
    else treeOfLoop n pos h offset

/-- The (offset, height) of the tree holding `pos`; `none` is the library's `None` and the
    guest's panic. -/
def treeOf (s : Stump H) (pos : UInt64) : Option (UInt64 × ℕ) :=
  treeOfLoop s.numLeaves pos 64 0

/-- Clear the proof's height and bare its siblings as the roots below. -/
def removeRightmost (s : Stump H) (proofLast : Proof H) : Stump H :=
  let s₁ := s.setRoot proofLast.siblings.length none
  let s₂ := proofLast.siblings.zipIdx.foldl (fun s p => s.setRoot p.2 (some p.1)) s₁
  { s₂ with numLeaves := s₂.numLeaves - 1 }

def normalized (s : Stump H) : List (Option H) := normalize s.roots

/-- `for b in (0..h).rev()`: the highest clear bit of `px` below `h`, else 0. -/
def highestZero (px : UInt64) : ℕ → ℕ
  | 0 => 0
  | b + 1 => if (px >>> UInt64.ofNat b) &&& 1 = 0 then b else highestZero px b

/-- `siblings[..j]`, which panics when `j` is past the end. -/
def slicePrefix (siblings : List H) (j : ℕ) : Option (List H) :=
  if j ≤ siblings.length then some (siblings.take j) else none

/-- Shape precondition of `remove_rightmost`: the local position is all-ones for its height. -/
def rightmostOk (s : Stump H) (p : Proof H) : Bool :=
  p.siblings.length < 64 ∧ 0 < s.numLeaves ∧
    p.position = (1 : UInt64) <<< UInt64.ofNat p.siblings.length - 1

/-- The library's `Stump::delete`: what it returns, and the accumulator it leaves. -/
def delete [DecidableEq H] (parent : H → H → H) (s : Stump H) (i : UInt64)
    (proofI proofLast : Proof H) : Option (Bool × Stump H) :=
  if s.numLeaves = 0 then some (false, s)
  else if s.numLeaves ≤ i then some (false, s)
  else if ¬ s.verify parent proofI then some (false, s)
  else
    let last := s.numLeaves - 1
    if i = last then
      if ¬ s.rightmostOk proofI then some (false, s)
      else some (true, s.removeRightmost proofI)
    else if ¬ s.verify parent proofLast then some (false, s)
    else if ¬ s.rightmostOk proofLast then some (false, s)
    else
      match s.treeOf i with
      | none => some (false, s)
      | some (offI, hI) =>
        match s.treeOf last with
        | none => some (false, s)
        | some (offLast, _) =>
          let lHash := proofLast.leaf
          if offI ≠ offLast then
            let newRoot := fold parent proofI.position lHash proofI.siblings
            some (true, (s.setRoot hI (some newRoot)).removeRightmost proofLast)
          else
            let px := proofI.position
            let j := highestZero px hI
            if proofI.siblings.length < j then some (false, s)
            else
              let s' := s.removeRightmost proofLast
              let loc := px &&& ((1 : UInt64) <<< UInt64.ofNat j - 1)
              (slicePrefix proofI.siblings j).map fun sibs =>
                (true, s'.setRoot j (some (fold parent loc lHash sibs)))

end Stump

/-! ## One lemma per operation: what each does to every root -/

theorem join_getElem?_normalize (v : List (Option H)) (h : ℕ) :
    (normalize v)[h]?.join = v[h]?.join := by
  induction v using List.reverseRecOn with
  | nil => rfl
  | append_singleton v x ih =>
    unfold normalize at ih ⊢
    cases x with
    | some x => rw [List.rdropWhile_concat_neg _ _ _ (by simp)]
    | none =>
      rw [List.rdropWhile_concat_pos _ _ _ (by rfl), ih]
      rcases Nat.lt_trichotomy h v.length with hlt | rfl | hgt
      · rw [List.getElem?_append_left hlt]
      · simp
      · rw [List.getElem?_eq_none (by omega), List.getElem?_eq_none (by simp; omega)]

/-- Writing one height leaves every other as it was, also where the vector has to be grown for
    it. -/
theorem join_getElem?_setAt (v : List (Option H)) (h : ℕ) (x : Option H) (k : ℕ) :
    (setAt v h x)[k]?.join = if k = h then x else v[k]?.join := by
  unfold setAt
  rw [List.getElem?_set]
  by_cases hk : k = h
  · subst hk
    rw [if_pos rfl, if_pos rfl, if_pos, Option.join_some]
    split
    · rw [List.length_append, List.length_replicate]
      omega
    · omega
  · rw [if_neg (Ne.symm hk), if_neg hk]
    split
    · rcases Nat.lt_or_ge k v.length with hlt | hge
      · rw [List.getElem?_append_left hlt]
      · rw [List.getElem?_append_right hge, List.getElem?_eq_none hge,
          List.getElem?_replicate]
        split <;> rfl
    · rfl

/-- Two root vectors that agree at every height differ in trailing `None`s only. -/
theorem normalize_eq_iff {v w : List (Option H)} :
    normalize v = normalize w ↔ ∀ h : ℕ, v[h]?.join = w[h]?.join := by
  constructor
  · intro heq h
    rw [← join_getElem?_normalize v, heq, join_getElem?_normalize]
  · intro hall
    -- a normalised vector ends where its last root is
    have hlast (u : List (Option H)) (k : ℕ) (hk : (normalize u).length = k + 1) :
        ∃ x, u[k]?.join = some x := by
      have hne : normalize u ≠ [] := by intro h0; rw [h0] at hk; simp at hk
      have hnot := List.rdropWhile_last_not Option.isNone u hne
      rw [← join_getElem?_normalize, ← Nat.add_sub_cancel (n := k) (m := 1), ← hk,
        ← List.getLast?_eq_getElem?]
      rw [List.getLast?_eq_some_getLast hne]
      cases hx : (normalize u).getLast hne with
      | none => exact absurd (by rw [show (List.rdropWhile Option.isNone u).getLast hne = none from hx]; rfl) hnot
      | some x => exact ⟨x, rfl⟩
    have hle (u u' : List (Option H)) (hu : ∀ h : ℕ, u[h]?.join = u'[h]?.join) :
        (normalize u).length ≤ (normalize u').length := by
      by_contra hlt
      obtain ⟨k, hk⟩ : ∃ k, (normalize u).length = k + 1 :=
        ⟨(normalize u).length - 1, by omega⟩
      obtain ⟨x, hx⟩ := hlast u k hk
      have : (normalize u')[k]?.join = none := by
        rw [List.getElem?_eq_none (by omega)]
        rfl
      rw [join_getElem?_normalize, ← hu, hx] at this
      simp at this
    have hlen : (normalize v).length = (normalize w).length :=
      Nat.le_antisymm (hle v w hall) (hle w v fun h => (hall h).symm)
    apply List.ext_getElem hlen
    intro h hv hw
    have := hall h
    rw [← join_getElem?_normalize v, ← join_getElem?_normalize w] at this
    rwa [List.getElem?_eq_getElem hv, List.getElem?_eq_getElem hw] at this

theorem fold_eq_climb (parent : H → H → H) (position : UInt64) (leaf : H)
    (siblings : List H) :
    fold parent position leaf siblings = climb parent position.toNat leaf siblings := by
  unfold fold
  induction siblings generalizing position leaf with
  | nil => rfl
  | cons s ss ih =>
    rw [List.foldl_cons, ih, climb_cons, Word64.toNat_shiftRight_one]
    simp only [Word64.and_one_eq_zero, join]

namespace Stump

@[simp] theorem setRoot_numLeaves (s : Stump H) (h : ℕ) (v : Option H) :
    (s.setRoot h v).numLeaves = s.numLeaves := rfl

theorem rootAt_setRoot (s : Stump H) (h : ℕ) (v : Option H) (k : ℕ) :
    (s.setRoot h v).rootAt k = if k = h then v else s.rootAt k :=
  join_getElem?_setAt s.roots h v k

/-- Writing a run of roots from height `n` on: the heights of the run hold them, and all others what
    they held. -/
theorem rootAt_foldl_setRoot (ss : List H) (n : ℕ) (s : Stump H) (k : ℕ) :
    ((ss.zipIdx n).foldl (fun s p => s.setRoot p.2 (some p.1)) s).rootAt k =
      if n ≤ k ∧ k < n + ss.length then ss[k - n]? else s.rootAt k := by
  induction ss generalizing n s with
  | nil => simp
  | cons x ss ih =>
    rw [List.zipIdx_cons, List.foldl_cons, ih, rootAt_setRoot, List.length_cons]
    rcases Nat.lt_trichotomy k n with hlt | rfl | hgt
    · rw [if_neg (by omega), if_neg (by omega), if_neg (by omega)]
    · rw [if_neg (by omega), if_pos rfl, if_pos (by omega)]
      simp
    · by_cases hk : k < n + 1 + ss.length
      · rw [if_pos (by omega), if_pos (by omega), show k - n = k - (n + 1) + 1 by omega,
          List.getElem?_cons_succ]
      · rw [if_neg (by omega), if_neg (by omega), if_neg (by omega)]

theorem foldl_setRoot_numLeaves (ps : List (H × ℕ)) (s : Stump H) :
    (ps.foldl (fun s p => s.setRoot p.2 (some p.1)) s).numLeaves = s.numLeaves := by
  induction ps generalizing s with
  | nil => rfl
  | cons p ps ih => rw [List.foldl_cons, ih, setRoot_numLeaves]

@[simp] theorem removeRightmost_numLeaves (s : Stump H) (p : Proof H) :
    (s.removeRightmost p).numLeaves = s.numLeaves - 1 := by
  simp [removeRightmost, foldl_setRoot_numLeaves]

theorem rootAt_removeRightmost (s : Stump H) (p : Proof H) (k : ℕ) :
    (s.removeRightmost p).rootAt k =
      if k < p.siblings.length then p.siblings[k]?
      else if k = p.siblings.length then none else s.rootAt k := by
  have := rootAt_foldl_setRoot p.siblings 0 (s.setRoot p.siblings.length none) k
  rw [show (s.removeRightmost p).rootAt k = _ from this, rootAt_setRoot]
  simp

/-- The offset past a tree of height `h`: it is at most `n`, so the sum does not wrap. -/
theorem toNat_offset_of_set {n offset : UInt64} {h : ℕ} (hh : h < 64)
    (hoff : offset.toNat = n.toNat / 2 ^ (h + 1) * 2 ^ (h + 1))
    (hbit : n.toNat / 2 ^ h % 2 = 1) :
    (offset + (1 : UInt64) <<< UInt64.ofNat h).toNat = n.toNat / 2 ^ h * 2 ^ h := by
  have hsum : offset.toNat + 2 ^ h = n.toNat / 2 ^ h * 2 ^ h := by
    rw [hoff, pow_succ, ← Nat.div_div_eq_div_mul, mul_comm (2 ^ h) 2, ← mul_assoc]
    conv_rhs => rw [show n.toNat / 2 ^ h = n.toNat / 2 ^ h / 2 * 2 + 1 by omega]
    rw [Nat.add_mul, one_mul]
  rw [UInt64.toNat_add, Word64.toNat_one_shiftLeft hh, hsum]
  exact Nat.mod_eq_of_lt (lt_of_le_of_lt (Nat.div_mul_le_self _ _) n.toNat_lt)

theorem toNat_offset_of_clear {n offset : UInt64} {h : ℕ}
    (hoff : offset.toNat = n.toNat / 2 ^ (h + 1) * 2 ^ (h + 1))
    (hbit : n.toNat / 2 ^ h % 2 = 0) : offset.toNat = n.toNat / 2 ^ h * 2 ^ h := by
  rw [hoff, pow_succ, ← Nat.div_div_eq_div_mul, mul_comm (2 ^ h) 2, ← mul_assoc,
    Nat.div_mul_cancel (Nat.dvd_of_mod_eq_zero hbit)]

/-- The tree `tree_of` names is the one the position lies in, and its offset is its first leaf.
    The loop carries `offset = n` with the bits below `h` cleared. -/
theorem treeOfLoop_spec {n pos : UInt64} {h : ℕ} {offset off : UInt64} {k : ℕ} (hh : h ≤ 64)
    (hoff : offset.toNat = n.toNat / 2 ^ h * 2 ^ h)
    (heq : treeOfLoop n pos h offset = some (off, k)) :
    k < 64 ∧ InTree n.toNat pos.toNat k ∧ (pos - off).toNat = pos.toNat % 2 ^ k := by
  induction h generalizing offset with
  | zero => simp [treeOfLoop] at heq
  | succ h ih =>
    rw [treeOfLoop] at heq
    by_cases hbit : (n >>> UInt64.ofNat h) &&& 1 = 1
    · have hodd := (Word64.bit_eq_one n (by omega)).mp hbit
      have hend := toNat_offset_of_set (by omega) hoff hodd
      rw [if_pos hbit] at heq
      dsimp only at heq
      by_cases hin : offset ≤ pos ∧ pos < offset + (1 : UInt64) <<< UInt64.ofNat h
      · rw [if_pos hin] at heq
        obtain ⟨rfl, rfl⟩ := Prod.mk.inj (Option.some.inj heq)
        have hge := UInt64.le_iff_toNat_le.mp hin.1
        have hlt := UInt64.lt_iff_toNat_lt.mp hin.2
        have hoff' : offset.toNat = (n.toNat / 2 ^ h - 1) * 2 ^ h := by
          rw [hoff, pow_succ, ← Nat.div_div_eq_div_mul, mul_comm (2 ^ h) 2, ← mul_assoc]
          congr 1
          omega
        have hone : n.toNat / 2 ^ h - 1 + 1 = n.toNat / 2 ^ h :=
          Nat.sub_add_cancel (Nat.pos_of_ne_zero fun h0 => by simp [h0] at hodd)
        have hpd : pos.toNat / 2 ^ h = n.toNat / 2 ^ h - 1 := by
          apply Nat.div_eq_of_lt_le
          · rwa [← hoff']
          · rwa [hone, ← hend]
        refine ⟨by omega, ⟨hodd, by rw [hpd, hone]⟩, ?_⟩
        have hsplit := Nat.div_add_mod' pos.toNat (2 ^ h)
        rw [hpd, ← hoff'] at hsplit
        rw [UInt64.toNat_sub_of_le _ _ hin.1]
        omega
      · rw [if_neg hin] at heq
        exact ih (by omega) hend heq
    · have heven := mt (Word64.bit_eq_one n (by omega)).mpr hbit
      rw [if_neg hbit] at heq
      exact ih (by omega) (toNat_offset_of_clear hoff (by omega)) heq

/-- Every position inside the forest has a tree: the trees from the largest on cover the positions
    without a gap. -/
theorem treeOfLoop_isSome {n pos : UInt64} {h : ℕ} {offset : UInt64} (hh : h ≤ 64)
    (hoff : offset.toNat = n.toNat / 2 ^ h * 2 ^ h) (hge : offset ≤ pos) (hlt : pos < n) :
    (treeOfLoop n pos h offset).isSome := by
  induction h generalizing offset with
  | zero =>
    have hge' := UInt64.le_iff_toNat_le.mp hge
    have hlt' := UInt64.lt_iff_toNat_lt.mp hlt
    simp only [pow_zero, Nat.div_one, mul_one] at hoff
    omega
  | succ h ih =>
    rw [treeOfLoop]
    by_cases hbit : (n >>> UInt64.ofNat h) &&& 1 = 1
    · have hodd := (Word64.bit_eq_one n (by omega)).mp hbit
      rw [if_pos hbit]
      dsimp only
      split
      · rfl
      · rename_i hin
        refine ih (by omega) (toNat_offset_of_set (by omega) hoff hodd) ?_
        rw [← UInt64.not_lt]
        exact fun hc => hin ⟨hge, hc⟩
    · have heven := mt (Word64.bit_eq_one n (by omega)).mpr hbit
      rw [if_neg hbit]
      exact ih (by omega) (toNat_offset_of_clear hoff (by omega)) hge

/-- At the top of the loop every bit is still ahead. -/
theorem toNat_zero_offset (n : UInt64) :
    (0 : UInt64).toNat = n.toNat / 2 ^ 64 * 2 ^ 64 := by
  rw [Nat.div_eq_of_lt n.toNat_lt]
  rfl

theorem treeOf_spec {s : Stump H} {pos off : UInt64} {k : ℕ}
    (h : s.treeOf pos = some (off, k)) :
    k < 64 ∧ InTree s.numLeaves.toNat pos.toNat k ∧ (pos - off).toNat = pos.toNat % 2 ^ k :=
  treeOfLoop_spec le_rfl (toNat_zero_offset _) h

theorem treeOf_isSome {s : Stump H} {pos : UInt64} (h : pos < s.numLeaves) :
    (s.treeOf pos).isSome :=
  treeOfLoop_isSome le_rfl (toNat_zero_offset _)
    (by rw [UInt64.le_iff_toNat_le]; exact Nat.zero_le _) h

/-- Off the all-ones position, the highest clear bit splits `px` into ones above it and the
    local index below it. -/
theorem highestZero_spec (px : UInt64) (h : ℕ) (hh : h ≤ 64)
    (hne : px.toNat % 2 ^ h ≠ 2 ^ h - 1) :
    highestZero px h < h ∧
      px.toNat % 2 ^ h / 2 ^ highestZero px h + 2 = 2 ^ (h - highestZero px h) := by
  induction h with
  | zero => exact absurd (Nat.mod_one _) hne
  | succ h ih =>
    have hmod : px.toNat % 2 ^ (h + 1) = px.toNat % 2 ^ h + 2 ^ h * (px.toNat / 2 ^ h % 2) := by
      rw [pow_succ, Nat.mod_mul]
    have hlt : px.toNat % 2 ^ h < 2 ^ h := Nat.mod_lt _ (by positivity)
    rw [highestZero]
    by_cases hbit : (px >>> UInt64.ofNat h) &&& 1 = 0
    · have hz := (Word64.bit_eq_zero px (by omega)).mp hbit
      rw [if_pos hbit, hmod, hz, mul_zero, add_zero, Nat.div_eq_of_lt hlt]
      refine ⟨by omega, ?_⟩
      rw [show h + 1 - h = 1 by omega]
      rfl
    · have hone : px.toNat / 2 ^ h % 2 = 1 := by
        have := mt (Word64.bit_eq_zero px (by omega)).mpr hbit
        omega
      rw [hone, mul_one] at hmod
      have hne' : px.toNat % 2 ^ h ≠ 2 ^ h - 1 := by
        intro hc
        apply hne
        rw [hmod, hc, pow_succ]
        omega
      obtain ⟨hj, hsplit⟩ := ih (by omega) hne'
      rw [if_neg hbit]
      refine ⟨by omega, ?_⟩
      have hpow : 2 ^ h = 2 ^ (h - highestZero px h) * 2 ^ highestZero px h := by
        rw [← pow_add]
        congr 1
        omega
      rw [hmod, hpow, Nat.add_mul_div_right _ _ (by positivity), ← hpow,
        show h + 1 - highestZero px h = h - highestZero px h + 1 by omega, pow_succ]
      omega

end Stump
end Accumulator
end Hazync
