import Hazync.Accumulator.SwapAndShrink

/-!
# The guest's delete (`prover/methods/guest/src/utreexo.rs`)

In the guest both proofs come from the prover. `verify` proves membership and not location, so
`delete` first pins `i` and the last position to the tree and the local index each proof claims.
With those pins, and a `parent` that is injective on pairs, a proof that verifies is `Located`,
and the rest is `Hazync.Accumulator.SwapAndShrink`.

## What a pin is for

A proof has a position and a list of siblings, and verifying it hashes up from the leaf, left or
right by the bits of the position, and compares with the root at the height of the list. So a proof
of another leaf verifies as well, and with it a proof of the leaf at another place whose path has
the same bits. If the guest deleted what the proof is of while it shrank the tree at the index that
it was given, the list would lose two leaves and keep one of them twice. The pins exclude it: the
index says which tree it is in and where in that tree, and the proof's height and position have to
be these.
-/

namespace Hazync
namespace Guest

open MerkleForest SwapRemove
open Accumulator (Proof Stump Located fold)

variable {H : Type}

/-- `Stump::delete` of the guest. `none` is a panic, of `tree_of` or of a slice. -/
def Stump.delete [DecidableEq H] (parent : H → H → H) (s : Stump H) (i : UInt64)
    (proofI proofLast : Proof H) : Option (Bool × Stump H) :=
  if s.numLeaves ≤ i then some (false, s)
  else do
    let (offChk, hChk) ← s.treeOf i
    if proofI.siblings.length ≠ hChk ∨ proofI.position ≠ i - offChk then some (false, s)
    else if ¬ s.verify parent proofI then some (false, s)
    else
      let last := s.numLeaves - 1
      if i = last then some (true, s.removeRightmost proofI)
      else do
        let (offL, hL) ← s.treeOf last
        if proofLast.siblings.length ≠ hL ∨ proofLast.position ≠ last - offL then
          some (false, s)
        else if ¬ s.verify parent proofLast then some (false, s)
        else do
          let lHash := proofLast.leaf
          let (offI, hI) ← s.treeOf i
          let (offLast, _) ← s.treeOf last
          if offI ≠ offLast then
            let newRoot := fold parent proofI.position lHash proofI.siblings
            some (true, (s.setRoot hI (some newRoot)).removeRightmost proofLast)
          else do
            let s' := s.removeRightmost proofLast
            let px := proofI.position
            let j := Stump.highestZero px hI
            let loc := px &&& ((1 : UInt64) <<< UInt64.ofNat j - 1)
            let sibs ← Stump.slicePrefix proofI.siblings j
            some (true, s'.setRoot j (some (fold parent loc lHash sibs)))

namespace Stump

variable {parent : H → H → H} {s s' : Stump H} {L : List H} {i : UInt64} {p q : Proof H}

/-- **The pins make a verified proof a located one.** Verification alone gives some leaf at some
height; the height and the local index fix which. -/
theorem located_of_verify [DecidableEq H] (hinj : PairInjective parent)
    (h : s.Commits parent L) {off : UInt64} {k : ℕ} (ht : s.treeOf i = some (off, k))
    (hlen : p.siblings.length = k) (hpos : p.position = i - off)
    (hv : s.verify parent p = true) : Located parent L i.toNat p := by
  subst hlen
  obtain ⟨-, hin, hmod⟩ := Stump.treeOf_spec ht
  rw [h.numLeaves] at hin
  have hposition : p.position.toNat = i.toNat % 2 ^ p.siblings.length := by rw [hpos, hmod]
  have hroot : peak parent p.siblings.length L =
      some (climb parent i.toNat p.leaf p.siblings) := by
    rw [Stump.verify, h.rootAt, decide_eq_true_iff] at hv
    rw [hv, Proof.computeRoot, Accumulator.fold_eq_climb, hposition, climb_mod]
  obtain ⟨hleaf, hpath⟩ := of_peak_climb hinj hin hroot
  exact ⟨hleaf, hpath, hin, hposition⟩

/-- On located proofs the guest accepts the delete and swaps and shrinks. -/
theorem delete_of_located [DecidableEq H] (h : s.Commits parent L)
    (hp : Located parent L i.toNat p)
    (hq : i.toNat + 1 ≠ L.length → Located parent L (L.length - 1) q) :
    ∃ s', delete parent s i p q = some (true, s') ∧
      s'.Commits parent (swapRemove L i.toNat) := by
  obtain ⟨-, hge⟩ := h.pos hp.lt
  obtain ⟨offI, hI⟩ := h.exists_treeOf hp
  obtain ⟨-, hposI⟩ := h.treeOf_eq hp hI
  have hguard : ¬ (p.siblings.length ≠ p.siblings.length ∨ p.position ≠ i - offI) := by
    simp [hposI]
  rw [delete, if_neg hge]
  simp only [hI, Option.bind_eq_bind, Option.bind_some, if_neg hguard, hp.verify h,
    not_true_eq_false, if_false]
  by_cases hlast : i.toNat + 1 = L.length
  · rw [if_pos ((h.eq_last_iff hp.lt).mpr hlast)]
    refine ⟨_, rfl, ?_⟩
    rw [swapRemove_last hlast]
    exact h.removeRightmost hp hlast
  · have hq := hq hlast
    have hpos : 0 < L.length := Nat.lt_of_le_of_lt (Nat.zero_le _) hp.lt
    obtain ⟨offL, hL⟩ := h.exists_treeOf (h.located_last hpos hq)
    obtain ⟨-, hposL⟩ := h.treeOf_eq (h.located_last hpos hq) hL
    have hguard' : ¬ (q.siblings.length ≠ q.siblings.length ∨
        q.position ≠ s.numLeaves - 1 - offL) := by simp [hposL]
    rw [if_neg (mt (h.eq_last_iff hp.lt).mp hlast)]
    simp only [hL, Option.bind_some, if_neg hguard', hq.verify h, not_true_eq_false, if_false]
    by_cases hoff : offI = offL
    · have heq := (Stump.treeOf_offset_eq_iff hI hL).mp hoff
      obtain ⟨hj, -⟩ := Stump.inTree_highestZero h.length_lt hp hq hlast heq
      rw [if_neg (by simpa using hoff), Stump.slicePrefix, if_pos hj.le]
      exact ⟨_, rfl, h.swap_of_eq hp hq hlast heq rfl⟩
    · rw [if_pos hoff]
      exact ⟨_, rfl, h.swap_of_ne hp hq (mt (Stump.treeOf_offset_eq_iff hI hL).mpr hoff)⟩

/-- What a delete has to have checked to return true: the pins and the proof of `i`, and of the
    last position unless `i` is the last. -/
theorem checks_of_delete [DecidableEq H] (hd : delete parent s i p q = some (true, s')) :
    (∃ off, s.treeOf i = some (off, p.siblings.length) ∧ p.position = i - off ∧
      s.verify parent p = true) ∧
    (i ≠ s.numLeaves - 1 → ∃ off, s.treeOf (s.numLeaves - 1) = some (off, q.siblings.length) ∧
      q.position = s.numLeaves - 1 - off ∧ s.verify parent q = true) := by
  unfold delete at hd
  split at hd
  · simp at hd
  cases hI : s.treeOf i with
  | none => simp [hI] at hd
  | some tI =>
    obtain ⟨offI, kI⟩ := tI
    simp only [hI, Option.bind_eq_bind, Option.bind_some] at hd
    split at hd
    · simp at hd
    rename_i hpin
    obtain ⟨rfl, hposI⟩ : p.siblings.length = kI ∧ p.position = i - offI := by
      simpa [not_or] using hpin
    split at hd
    · simp at hd
    rename_i hvI
    refine ⟨⟨offI, rfl, hposI, by simpa using hvI⟩, fun hne => ?_⟩
    rw [if_neg hne] at hd
    cases hL : s.treeOf (s.numLeaves - 1) with
    | none => simp [hL] at hd
    | some tL =>
      obtain ⟨offL, kL⟩ := tL
      simp only [hL, Option.bind_some] at hd
      split at hd
      · simp at hd
      rename_i hpin'
      obtain ⟨rfl, hposL⟩ : q.siblings.length = kL ∧ q.position = s.numLeaves - 1 - offL := by
        simpa [not_or] using hpin'
      split at hd
      · simp at hd
      rename_i hvL
      exact ⟨offL, rfl, hposL, by simpa using hvL⟩

/-- Against a one-to-one `parent`, both proofs of an accepted delete are the honest ones. -/
theorem located_of_delete [DecidableEq H] (hinj : PairInjective parent)
    (h : s.Commits parent L) (hd : delete parent s i p q = some (true, s')) :
    Located parent L i.toNat p ∧
      (i.toNat + 1 ≠ L.length → Located parent L (L.length - 1) q) := by
  obtain ⟨⟨off, ht, hpos, hv⟩, hlast⟩ := checks_of_delete hd
  have hp := located_of_verify hinj h ht rfl hpos hv
  refine ⟨hp, fun hne => ?_⟩
  obtain ⟨off', ht', hpos', hv'⟩ := hlast (mt (h.eq_last_iff hp.lt).mp hne)
  have hq := located_of_verify hinj h ht' rfl hpos' hv'
  rwa [h.toNat_pred (by have := hp.lt; omega)] at hq

/-- **An accepted delete removes exactly leaf `i`.** Whatever leaf, position and siblings the two
proofs carry, the guest's `delete` returns true only if `i` is in range and `proofI` is of its
leaf, and the accumulator it leaves is that of `L` with the last leaf moved into slot `i`. -/
theorem delete_sound [DecidableEq H] (hinj : PairInjective parent) (h : s.Commits parent L)
    (hd : delete parent s i p q = some (true, s')) :
    i.toNat < L.length ∧ L[i.toNat]? = some p.leaf ∧
      s'.Commits parent (swapRemove L i.toNat) := by
  obtain ⟨hp, hq⟩ := located_of_delete hinj h hd
  obtain ⟨t, ht, hcommits⟩ := delete_of_located h hp hq
  rw [hd] at ht
  obtain ⟨-, rfl⟩ := Prod.mk.inj (Option.some.inj ht)
  exact ⟨hp.lt, hp.leaf, hcommits⟩

/-- A free hash, to instantiate the results at: `node` is injective by construction. -/
inductive FreeHash
  | leaf (n : ℕ)
  | node (l r : FreeHash)
  deriving DecidableEq

theorem FreeHash.node_injective : PairInjective FreeHash.node :=
  fun _ _ _ _ h => FreeHash.node.inj h

/-- The accumulator of three leaves, built by `add`. -/
def threeLeaves : Stump FreeHash :=
  [FreeHash.leaf 0, .leaf 1, .leaf 2].foldl (Stump.add FreeHash.node) Stump.empty

theorem threeLeaves_commits :
    threeLeaves.Commits FreeHash.node [FreeHash.leaf 0, .leaf 1, .leaf 2] :=
  ((Stump.Commits.empty.add _ (by decide)).add _ (by decide)).add _ (by decide)

/-- Leaf 1 of three is spent, and leaf 2 takes its slot. -/
theorem delete_sound_threeLeaves :
    ∃ s', delete FreeHash.node threeLeaves 1 ⟨.leaf 1, 1, [.leaf 0]⟩ ⟨.leaf 2, 0, []⟩ =
        some (true, s') ∧
      s'.Commits FreeHash.node [FreeHash.leaf 0, .leaf 2] :=
  ⟨_, rfl, (delete_sound FreeHash.node_injective threeLeaves_commits (i := 1)
    (p := ⟨.leaf 1, 1, [.leaf 0]⟩) (q := ⟨.leaf 2, 0, []⟩) rfl).2.2⟩

end Stump
end Guest
end Hazync
