import Mathlib.Tactic.Positivity
import Hazync.Accumulator.Reference
import Hazync.Lib.SwapRemove

/-!
# Swap-and-shrink on roots alone

A deletion sees the roots and two paths, never the leaves. `Located` is what a proof has to say
about the leaf vector for the arithmetic of `delete` to be right: the leaf, its whole path, the
height of its tree and the local index. Given two located proofs each `delete` computes the
roots of `swapRemove L i`, whatever the shape of the count; nothing about the hash is used.
The guest's hardening is then exactly what makes an arbitrary proof `Located`.

## The two cases of a delete

The last leaf is moved into slot `i`, and the last tree falls apart into its siblings. Where slot
`i` is in another tree, that tree keeps its shape and gets a new root along the old path
(`Commits.swap_of_ne`). Where it is in the last tree itself, it ends up in one of the subtrees that
the siblings are the roots of, and the path to it is the lower part of the old one
(`Commits.swap_of_eq`). Which subtree that is, is the one number both ports compute by a loop over
bits: the highest clear bit of the local index (`inTree_highestZero`).
-/

namespace Hazync
namespace Accumulator

open MerkleForest SwapRemove

variable {H : Type} {parent : H → H → H}

/-- The proof `p` is the one of leaf `i` of `L`. -/
structure Located (parent : H → H → H) (L : List H) (i : ℕ) (p : Proof H) : Prop where
  leaf : L[i]? = some p.leaf
  /-- The siblings are those of the tree that the leaf is in, from the bottom up. -/
  path : IsPath parent L i p.siblings
  /-- So many of them there are as that tree is high, which says which of the trees it is. -/
  tree : InTree L.length i p.siblings.length
  /-- And the position is the one that the leaf has in this tree. -/
  position : p.position.toNat = i % 2 ^ p.siblings.length

namespace Located

variable {L : List H} {i : ℕ} {p : Proof H}

theorem lt (h : Located parent L i p) : i < L.length := h.tree.lt

theorem computeRoot (h : Located parent L i p) :
    p.computeRoot parent = climb parent i p.leaf p.siblings := by
  rw [Proof.computeRoot, fold_eq_climb, h.position, climb_mod]

theorem peak_eq (h : Located parent L i p) :
    peak parent p.siblings.length L = some (p.computeRoot parent) := by
  rw [h.computeRoot]
  exact peak_climb parent h.tree h.leaf h.path

/-- The height of a tree of a 64-bit count is below 64. -/
theorem height_lt (h : Located parent L i p) (hL : L.length < 2 ^ 64) :
    p.siblings.length < 64 := by
  by_contra hge
  have h0 : L.length / 2 ^ p.siblings.length = 0 := Nat.div_eq_of_lt
    (lt_of_lt_of_le hL (Nat.pow_le_pow_right (by norm_num) (by omega)))
  have := h.tree.1
  rw [h0] at this
  simp at this

theorem verify [DecidableEq H] {s : Stump H} (h : Located parent L i p)
    (hs : s.Commits parent L) : s.verify parent p = true := by
  rw [Stump.verify, hs.rootAt, h.peak_eq]
  simp

/-- The last leaf stands at the all-ones index of its tree. -/
theorem position_last (h : Located parent L i p) (hlast : i + 1 = L.length) :
    p.position.toNat + 1 = 2 ^ p.siblings.length := by
  rw [h.position]
  exact h.tree.last_mod hlast

end Located

/-! ## `add` -/

/-- The carry loop appends to the list whose peaks it runs on. Where the count ends in ones the
    peaks of these heights merge into one above them, as the bits of a sum do. -/
theorem carry_spec (v : List (Option H)) {L : List H} (x : H)
    (h : ∀ k : ℕ, v[k]?.join = peak parent k L) (k : ℕ) :
    (Stump.carry parent x v)[k]?.join = peak parent k (L ++ [x]) := by
  induction v generalizing L x k with
  | nil =>
    have hnil : L = [] := eq_nil_of_peak_none parent fun k => (h k).symm
    subst hnil
    cases k with
    | zero => simp [Stump.carry, peak]
    | succ k => simp [Stump.carry]
  | cons r rest ih =>
    have hrest (k : ℕ) : rest[k]?.join = peak parent k (pairUp parent L) := by
      simpa using h (k + 1)
    have h0 := h 0
    rw [List.getElem?_cons_zero, Option.join_some] at h0
    cases r with
    | none =>
      have heven : L.length % 2 = 0 := by
        have := (peak_isSome parent 0 L).not.mp (by rw [← h0]; simp)
        simp only [pow_zero, Nat.div_one] at this
        omega
      cases k with
      | zero =>
        rw [peak_zero_of_odd parent (by rw [List.length_append, List.length_singleton]; omega)]
        simp [Stump.carry]
      | succ k => simpa [Stump.carry, pairUp_append_of_even parent x heven] using hrest k
    | some e =>
      have hodd : L.length % 2 = 1 := by
        have := (peak_isSome parent 0 L).mp (by rw [← h0]; simp)
        simpa using this
      rw [peak_zero_of_odd parent hodd] at h0
      cases k with
      | zero =>
        rw [peak_zero_of_even parent (by rw [List.length_append, List.length_singleton]; omega)]
        simp [Stump.carry]
      | succ k =>
        rw [peak_succ, pairUp_append_of_odd parent x hodd h0.symm]
        exact ih (parent e x) hrest k

namespace Stump

variable {s s' : Stump H} {L : List H}

theorem Commits.empty : (Stump.empty : Stump H).Commits parent [] :=
  .of_rootAt rfl fun k => by simp [Stump.rootAt, Stump.empty]

theorem Commits.add (h : s.Commits parent L) (x : H) (hlen : L.length + 1 < 2 ^ 64) :
    (s.add parent x).Commits parent (L ++ [x]) := by
  refine .of_rootAt ?_ (carry_spec s.roots x h.rootAt)
  rw [List.length_append, List.length_singleton]
  show (s.numLeaves + 1).toNat = _
  rw [Word64.toNat_add_one (by rw [h.numLeaves]; exact hlen), h.numLeaves]

/-! ## Removing the last leaf -/

theorem Commits.toNat_pred (h : s.Commits parent L) (hpos : 0 < L.length) :
    (s.numLeaves - 1).toNat = L.length - 1 := by
  rw [Word64.toNat_sub_one (by rw [h.numLeaves]; exact hpos), h.numLeaves]

theorem Commits.removeRightmost {i : ℕ} {p : Proof H} (h : s.Commits parent L)
    (hp : Located parent L i p) (hlast : i + 1 = L.length) :
    (s.removeRightmost p).Commits parent L.dropLast := by
  refine .of_rootAt ?_ fun k => ?_
  · rw [removeRightmost_numLeaves, h.toNat_pred (by omega), List.length_dropLast]
  · rw [rootAt_removeRightmost, peak_dropLast parent hlast hp.tree hp.path, h.rootAt]

/-! ## Moving the last leaf into slot `i` -/

/-- What is left to check of a swap: `m` is the height of the tree slot `i` lies in once the last
    leaf is gone, and `s'` has the moved leaf's climb there and the bared siblings below. The two
    cases differ in `m` only. -/
theorem Commits.swap {i m : ℕ} {p q : Proof H} (h : s.Commits parent L)
    (hp : Located parent L i p) (hq : Located parent L (L.length - 1) q)
    (hm : m ≤ p.siblings.length) (hin : InTree (L.length - 1) i m)
    (hn : s'.numLeaves = s.numLeaves - 1)
    (hr : ∀ k, s'.rootAt k = if k = m then some (climb parent i q.leaf (p.siblings.take m))
      else if k < q.siblings.length then q.siblings[k]?
      else if k = q.siblings.length then none else s.rootAt k) :
    s'.Commits parent (swapRemove L i) := by
  have hpos : 0 < L.length := Nat.lt_of_le_of_lt (Nat.zero_le _) hp.lt
  have hlast : L.getLast? = some q.leaf := by rw [List.getLast?_eq_getElem?, hq.leaf]
  have hlen : (p.siblings.take m).length = m := by rw [List.length_take]; omega
  have hpath : IsPath parent L.dropLast i (p.siblings.take m) := by
    apply (hp.path.take parent m).dropLast parent
    rw [hlen, ← hin.2]
    omega
  refine .of_rootAt ?_ fun k => ?_
  · rw [hn, h.toNat_pred hpos, length_swapRemove]
  · have hset := peak_set parent q.leaf (k := k)
      (by rw [hlen, List.length_dropLast]; exact hin) hpath
    rw [hr, swapRemove_of_lt hlast, hset, hlen,
      peak_dropLast parent (by omega) hq.tree hq.path, h.rootAt]

end Stump

/-! ## Which tree slot `i` lies in afterwards -/

/-- Dropping the last entry leaves every tree but its own standing. -/
theorem inTree_pred_of_ne {n i h k : ℕ} (hi : InTree n i h) (hl : InTree n (n - 1) k)
    (hne : h ≠ k) : InTree (n - 1) i h := by
  have hn : n - 1 + 1 = n := by have := hi.lt; omega
  have hdiv : n / 2 ^ h = (n - 1) / 2 ^ h := by
    conv_lhs => rw [← hn, Nat.succ_div]
    rw [if_neg, add_zero]
    intro hdvd
    refine hne (InTree.unique (i := n - 1) ⟨hi.1, ?_⟩ hl)
    conv_rhs => rw [← hn, Nat.succ_div, if_pos hdvd]
  obtain ⟨hodd, hlast⟩ := hi
  rw [hdiv] at hodd hlast
  exact ⟨hodd, hlast⟩

/-- In the tree of the last entry, slot `i` ends in the subtree its highest clear bit opens. -/
theorem inTree_pred_of_eq {n i h j : ℕ} (hi : InTree n i h) (hl : InTree n (n - 1) h)
    (hj : j < h) (hz : i % 2 ^ h / 2 ^ j + 2 = 2 ^ (h - j)) : InTree (n - 1) i j := by
  have hn : n - 1 + 1 = n := by have := hi.lt; omega
  have hpow : 2 ^ h = 2 ^ (h - j) * 2 ^ j := by rw [← pow_add, Nat.sub_add_cancel hj.le]
  have hdvd : 2 ^ h ∣ n := hl.dvd_of_last hn
  have hq : n = (i / 2 ^ h + 1) * 2 ^ h := by rw [hi.2, Nat.div_mul_cancel hdvd]
  -- `n - 1` and `i`, counted in subtrees of size `2 ^ j`
  have hlast : (n - 1) / 2 ^ j + 1 = (i / 2 ^ h + 1) * 2 ^ (h - j) := by
    have hn' : n = (i / 2 ^ h + 1) * 2 ^ (h - j) * 2 ^ j := by rw [hq, hpow, mul_assoc]
    have hs := Nat.succ_div (a := n - 1) (b := 2 ^ j)
    rw [hn, if_pos ⟨_, hn'.trans (mul_comm _ _)⟩] at hs
    rw [← hs]
    conv_lhs => rw [hn']
    exact Nat.mul_div_cancel _ (by positivity)
  have hslot : i / 2 ^ j = i / 2 ^ h * 2 ^ (h - j) + i % 2 ^ h / 2 ^ j := by
    conv_lhs => rw [← Nat.div_add_mod' i (2 ^ h)]
    have hmul : i / 2 ^ h * 2 ^ h = i / 2 ^ h * 2 ^ (h - j) * 2 ^ j := by
      rw [mul_assoc, ← hpow]
    rw [hmul, add_comm, Nat.add_mul_div_right _ _ (by positivity), add_comm]
  have hsize : (i / 2 ^ h + 1) * 2 ^ (h - j) = i / 2 ^ h * 2 ^ (h - j) + 2 ^ (h - j) := by ring
  have heven : 2 ^ (h - j) = 2 * 2 ^ (h - j - 1) := by
    rw [← pow_succ']
    congr 1
    omega
  have hmul2 : (i / 2 ^ h + 1) * 2 ^ (h - j) = 2 * ((i / 2 ^ h + 1) * 2 ^ (h - j - 1)) := by
    rw [heven]
    ring
  refine ⟨by omega, by omega⟩

namespace Stump

variable {s : Stump H} {L : List H} {i : UInt64} {offI offL : UInt64} {hI hL : ℕ}

/-- `tree_of` names the height of a located proof. -/
theorem Commits.treeOf_eq {p : Proof H} {off : UInt64} {k : ℕ} (h : s.Commits parent L)
    (hp : Located parent L i.toNat p) (ht : s.treeOf i = some (off, k)) :
    k = p.siblings.length ∧ p.position = i - off := by
  obtain ⟨-, hin, hpos⟩ := treeOf_spec ht
  rw [h.numLeaves] at hin
  obtain rfl := hin.unique hp.tree
  exact ⟨rfl, UInt64.toNat_inj.mp (by rw [hp.position, hpos])⟩

theorem Commits.exists_treeOf {p : Proof H} (h : s.Commits parent L)
    (hp : Located parent L i.toNat p) : ∃ off, s.treeOf i = some (off, p.siblings.length) := by
  have hlt : i < s.numLeaves := by
    rw [UInt64.lt_iff_toNat_lt, h.numLeaves]
    exact hp.lt
  obtain ⟨⟨off, k⟩, ht⟩ := Option.isSome_iff_exists.mp (treeOf_isSome hlt)
  exact ⟨off, by rw [ht, (h.treeOf_eq hp ht).1]⟩

/-- Two positions of one tree, and only they, have one offset. The source tells the two cases of a
    swap apart by it. -/
theorem treeOf_offset_eq_iff {l : UInt64} (hi : s.treeOf i = some (offI, hI))
    (hl : s.treeOf l = some (offL, hL)) : offI = offL ↔ hI = hL := by
  obtain ⟨-, hinI, hposI⟩ := treeOf_spec hi
  obtain ⟨-, hinL, hposL⟩ := treeOf_spec hl
  -- the offset is the position with its local bits cleared
  have hoff {pos off : UInt64} {k : ℕ} (h : (pos - off).toNat = pos.toNat % 2 ^ k) :
      off.toNat = pos.toNat / 2 ^ k * 2 ^ k := by
    have hle : pos - off ≤ pos := by
      rw [UInt64.le_iff_toNat_le, h]
      exact Nat.mod_le _ _
    have hsub := UInt64.toNat_sub_of_le _ _ hle
    rw [show pos - (pos - off) = off by grind, h] at hsub
    have := Nat.div_add_mod' pos.toNat (2 ^ k)
    omega
  rw [← UInt64.toNat_inj, hoff hposI, hoff hposL]
  constructor
  · intro heq
    have hfirst {pos k : ℕ} (h : InTree s.numLeaves.toNat pos k) :
        InTree s.numLeaves.toNat (pos / 2 ^ k * 2 ^ k) k :=
      ⟨h.1, by rw [Nat.mul_div_cancel _ (by positivity), h.2]⟩
    refine (hfirst hinI).unique ?_
    rw [heq]
    exact hfirst hinL
  · rintro rfl
    have := hinI.2.trans hinL.2.symm
    rw [Nat.add_right_cancel this]

/-- The climb a swap into another tree stores. -/
theorem fold_of_located {p : Proof H} {k : ℕ} (hp : Located parent L k p) (x : H) :
    fold parent p.position x p.siblings = climb parent k x p.siblings := by
  rw [fold_eq_climb, hp.position, climb_mod]

/-- The climb a swap inside the last tree stores: only the low `j` turns are left. -/
theorem fold_take_of_located {p : Proof H} {k j : ℕ} (hp : Located parent L k p)
    (hj : j < p.siblings.length) (hj64 : j < 64) (x : H) :
    fold parent (p.position &&& ((1 : UInt64) <<< UInt64.ofNat j - 1)) x (p.siblings.take j) =
      climb parent k x (p.siblings.take j) := by
  have hlen : (p.siblings.take j).length = j := by rw [List.length_take]; omega
  rw [fold_eq_climb, Word64.toNat_and_mask _ hj64, hp.position,
    Nat.mod_mod_of_dvd _ (Nat.pow_dvd_pow 2 hj.le)]
  conv_rhs => rw [← climb_mod, hlen]

/-- **Last leaf in another tree.** -/
theorem Commits.swap_of_ne {p q : Proof H} (h : s.Commits parent L)
    (hp : Located parent L i.toNat p) (hq : Located parent L (L.length - 1) q)
    (hne : p.siblings.length ≠ q.siblings.length) :
    ((s.setRoot p.siblings.length
        (some (fold parent p.position q.leaf p.siblings))).removeRightmost q).Commits parent
      (swapRemove L i.toNat) := by
  refine h.swap hp hq le_rfl (inTree_pred_of_ne hp.tree hq.tree hne) ?_ fun k => ?_
  · rw [removeRightmost_numLeaves, setRoot_numLeaves]
  · rw [rootAt_removeRightmost, rootAt_setRoot, fold_of_located hp, List.take_length]
    -- the last tree is the lowest, so its siblings stand below `p`'s root
    have hlow : q.siblings.length ≤ p.siblings.length :=
      hp.tree.le_of_dvd (hq.tree.dvd_of_last (by have := hp.lt; omega))
    by_cases hk : k = p.siblings.length
    · rw [if_pos hk, if_neg (by omega), if_neg (by omega), if_pos hk]
    · rw [if_neg hk, if_neg hk]

/-- Off the last slot, the highest clear bit of the local index is the height at which slot
    `i`'s subtree is re-exposed. -/
theorem inTree_highestZero {p q : Proof H} {k : ℕ} (hL : L.length < 2 ^ 64)
    (hp : Located parent L k p) (hq : Located parent L (L.length - 1) q)
    (hk : k + 1 ≠ L.length) (heq : p.siblings.length = q.siblings.length) :
    highestZero p.position p.siblings.length < p.siblings.length ∧
      InTree (L.length - 1) k (highestZero p.position p.siblings.length) := by
  have hmod : p.position.toNat % 2 ^ p.siblings.length = k % 2 ^ p.siblings.length := by
    rw [hp.position, Nat.mod_mod]
  have hlast : L.length - 1 + 1 = L.length := by have := hp.lt; omega
  have hne : p.position.toNat % 2 ^ p.siblings.length ≠ 2 ^ p.siblings.length - 1 := by
    -- only the last entry of the tree has the all-ones index
    intro hones
    have hqpos := hq.position_last hlast
    rw [hq.position, ← heq] at hqpos
    have hdiv : k / 2 ^ p.siblings.length = (L.length - 1) / 2 ^ p.siblings.length := by
      have h1 := hp.tree.2
      have h2 := hq.tree.2
      rw [← heq] at h2
      omega
    have h1 := Nat.div_add_mod' k (2 ^ p.siblings.length)
    have h2 := Nat.div_add_mod' (L.length - 1) (2 ^ p.siblings.length)
    rw [hdiv] at h1
    omega
  obtain ⟨hj, hz⟩ := highestZero_spec p.position p.siblings.length (hp.height_lt hL).le hne
  rw [hmod] at hz
  exact ⟨hj, inTree_pred_of_eq hp.tree (heq ▸ hq.tree) hj hz⟩

/-- **Last leaf in the same tree.** The moved leaf climbs to the height `j` of the highest
clear bit, along the first `j` siblings. -/
theorem Commits.swap_of_eq {p q : Proof H} {j : ℕ} (h : s.Commits parent L)
    (hp : Located parent L i.toNat p) (hq : Located parent L (L.length - 1) q)
    (hi : i.toNat + 1 ≠ L.length) (heq : p.siblings.length = q.siblings.length)
    (hj : highestZero p.position p.siblings.length = j) :
    ((s.removeRightmost q).setRoot j (some (fold parent
        (p.position &&& ((1 : UInt64) <<< UInt64.ofNat j - 1)) q.leaf
        (p.siblings.take j)))).Commits parent (swapRemove L i.toNat) := by
  obtain ⟨hlt, hin⟩ := inTree_highestZero h.length_lt hp hq hi heq
  rw [hj] at hlt hin
  have h64 := hp.height_lt h.length_lt
  refine h.swap hp hq hlt.le hin ?_ fun k => ?_
  · rw [setRoot_numLeaves, removeRightmost_numLeaves]
  · rw [rootAt_setRoot, rootAt_removeRightmost, fold_take_of_located hp hlt (by omega)]

/-! ## The library's `delete` on located proofs -/

theorem rightmostOk_of_located {p : Proof H} {k : ℕ} (h : s.Commits parent L)
    (hp : Located parent L k p) (hlast : k + 1 = L.length) : s.rightmostOk p = true := by
  have h64 := hp.height_lt h.length_lt
  have hone : (1 : UInt64) ≤ (1 : UInt64) <<< UInt64.ofNat p.siblings.length := by
    rw [UInt64.le_iff_toNat_le, Word64.toNat_one_shiftLeft h64]
    exact Nat.one_le_two_pow
  have hpos : p.position = (1 : UInt64) <<< UInt64.ofNat p.siblings.length - 1 := by
    rw [← UInt64.toNat_inj, UInt64.toNat_sub_of_le _ _ hone, Word64.toNat_one_shiftLeft h64,
      ← hp.position_last hlast]
    rfl
  have hn : 0 < s.numLeaves := by
    rw [UInt64.lt_iff_toNat_lt, h.numLeaves]
    exact Nat.lt_of_le_of_lt (Nat.zero_le _) hp.lt
  simp [rightmostOk, h64, hn, hpos]

/-- Slot `i` is the last one for the stump exactly when it is for the list. -/
theorem Commits.eq_last_iff (h : s.Commits parent L) (hlt : i.toNat < L.length) :
    i = s.numLeaves - 1 ↔ i.toNat + 1 = L.length := by
  rw [← UInt64.toNat_inj, h.toNat_pred (by omega)]
  omega

theorem Commits.pos (h : s.Commits parent L) (hlt : i.toNat < L.length) :
    s.numLeaves ≠ 0 ∧ ¬ s.numLeaves ≤ i := by
  rw [UInt64.not_le, UInt64.lt_iff_toNat_lt, h.numLeaves, ne_eq, ← UInt64.toNat_inj, h.numLeaves]
  exact ⟨by show L.length ≠ 0; omega, hlt⟩

/-- The proof of the last leaf, where a delete reads it. -/
theorem Commits.located_last {q : Proof H} (h : s.Commits parent L) (hpos : 0 < L.length)
    (hq : Located parent L (L.length - 1) q) :
    Located parent L (s.numLeaves - 1).toNat q := by
  rwa [h.toNat_pred hpos]

/-- **On located proofs the library accepts the delete and swaps and shrinks.** The proof of the
    last leaf is asked for only where another leaf is deleted; `delete` does not read it else. -/
theorem Commits.delete [DecidableEq H] {p q : Proof H} (h : s.Commits parent L)
    (hp : Located parent L i.toNat p)
    (hq : i.toNat + 1 ≠ L.length → Located parent L (L.length - 1) q) :
    ∃ s', s.delete parent i p q = some (true, s') ∧
      s'.Commits parent (swapRemove L i.toNat) := by
  obtain ⟨hn, hge⟩ := h.pos hp.lt
  rw [Stump.delete, if_neg hn, if_neg hge, if_neg (by rw [hp.verify h]; simp)]
  by_cases hlast : i.toNat + 1 = L.length
  · rw [if_pos ((h.eq_last_iff hp.lt).mpr hlast),
      if_neg (by rw [rightmostOk_of_located h hp hlast]; simp)]
    refine ⟨_, rfl, ?_⟩
    rw [swapRemove_last hlast]
    exact h.removeRightmost hp hlast
  · have hq := hq hlast
    have hpos : 0 < L.length := Nat.lt_of_le_of_lt (Nat.zero_le _) hp.lt
    obtain ⟨offI, hI⟩ := h.exists_treeOf hp
    obtain ⟨offL, hL⟩ := h.exists_treeOf (h.located_last hpos hq)
    rw [if_neg (mt (h.eq_last_iff hp.lt).mp hlast), if_neg (by rw [hq.verify h]; simp),
      if_neg (by rw [rightmostOk_of_located h hq (by omega)]; simp)]
    simp only [hI, hL]
    by_cases hoff : offI = offL
    · have heq := (treeOf_offset_eq_iff hI hL).mp hoff
      obtain ⟨hj, -⟩ := inTree_highestZero h.length_lt hp hq hlast heq
      rw [if_neg (by simpa using hoff), if_neg (by omega), slicePrefix, if_pos hj.le]
      exact ⟨_, rfl, h.swap_of_eq hp hq hlast heq rfl⟩
    · rw [if_pos hoff]
      exact ⟨_, rfl, h.swap_of_ne hp hq (mt (treeOf_offset_eq_iff hI hL).mpr hoff)⟩

end Stump

end Accumulator
end Hazync
