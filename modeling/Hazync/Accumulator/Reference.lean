import Mathlib.Tactic.Positivity
import Hazync.Accumulator.Stump

/-!
# The pre-cache reference (`accumulator::reference`)

The leaves-only implementations the crate keeps as its oracle. They say what the roots and the
proofs of a leaf vector *are*, one subtree at a time and with nothing cached; `Commits` is
stated with them, so what an accumulator commits to is said in the source's own words.

The loops run over the 64 bits of a `usize`. A slice or index out of range is a panic, `none`.

A count has one tree for each of its bits, the largest first. `mem_naiveTrees` says which trees
these are without the loop: a tree of height `h` begins at the count with the bits up to `h`
cleared. From it the roots of the naive functions are the *peaks* of the general theory of such
forests (`Hazync.Lib.MerkleForest`), and `Commits.rootAt` reads `Commits` at one height, which is
the form that the proofs about `Stump` use.

No bound is needed for the functions to return: `naiveRoots_spec` and `tree_bounds` hold of every
list. Beyond `2^64` leaves the loops would miss the higher bits, and there they return the roots of
a part of the list.
-/

namespace Hazync
namespace Accumulator

open MerkleForest

variable {H : Type} (parent : H → H → H)

/-- The loop of `naive_trees` (and of `Forest::trees`) over the heights below the given one. -/
def treesLoop (n : ℕ) : ℕ → ℕ → List (ℕ × ℕ)
  | 0, _ => []
  | h + 1, offset =>
    if (n >>> h) % 2 = 1 then (offset, h) :: treesLoop n h (offset + 2 ^ h)
    else treesLoop n h offset

/-- `vec![None; len.max(1).next_power_of_two().trailing_zeros() + 1]` -/
def emptyRoots (len : ℕ) : List (Option H) :=
  List.replicate ((max len 1).nextPowerOfTwo.log2 + 1) none

/-- `for (offset, height) in trees { roots[height] = Some(root(offset, height)) }`, growing the
    vector where it is too short. -/
def fillRoots (root : ℕ → ℕ → Option H) (trees : List (ℕ × ℕ)) (roots : List (Option H)) :
    Option (List (Option H)) :=
  trees.foldlM (fun roots t => (root t.1 t.2).map fun r => setAt roots t.2 (some r)) roots

namespace Reference

/-- `while level.len() > 1 { level = level.chunks(2).map(parent) }`. The slices it is run on
    have a power of two of entries, so no chunk is short. -/
def collapse (level : List H) : List H :=
  if 1 < level.length then collapse (pairUp parent level) else level
termination_by level.length
decreasing_by rw [length_pairUp]; omega

def naiveSubtreeRoot (leaves : List H) (offset height : ℕ) : Option H :=
  if offset + 2 ^ height ≤ leaves.length then
    (collapse parent ((leaves.drop offset).take (2 ^ height)))[0]?
  else none

def naiveTrees (n : ℕ) : List (ℕ × ℕ) := treesLoop n 64 0

def naiveRoots (leaves : List H) : Option (List (Option H)) :=
  fillRoots (naiveSubtreeRoot parent leaves) (naiveTrees leaves.length)
    (emptyRoots leaves.length)

/-- The sibling-collecting loop of `naive_prove`. -/
def naiveSiblings (level : List H) (pos : ℕ) : Option (List H) :=
  if 1 < level.length then do
    let s ← (if pos % 2 = 0 then level[pos + 1]? else level[pos - 1]?)
    let rest ← naiveSiblings (pairUp parent level) (pos / 2)
    some (s :: rest)
  else some []
termination_by level.length
decreasing_by rw [length_pairUp]; omega

def naiveProve (leaves : List H) (index : ℕ) : Option (Proof H) := do
  let (offset, height) ← (naiveTrees leaves.length).find?
    (fun t : ℕ × ℕ => t.1 ≤ index ∧ index < t.1 + 2 ^ t.2)
  let loc := index - offset
  let slice ← if offset + 2 ^ height ≤ leaves.length
    then some ((leaves.drop offset).take (2 ^ height)) else none
  let siblings ← naiveSiblings parent slice loc
  let leaf ← leaves[index]?
  some { leaf := leaf, position := UInt64.ofNat loc, siblings := siblings }

end Reference

/-- The accumulator `s` is the one over the leaves `L`: it counts them, and its roots are the
    Merkle roots of `L`'s perfect subtrees, up to trailing `None`. -/
structure Stump.Commits (s : Stump H) (L : List H) : Prop where
  numLeaves : s.numLeaves.toNat = L.length
  roots : (Reference.naiveRoots parent L).map normalize = some s.normalized

/-! ## The trees, once -/

/-- The trees below height `h`, from the offset the higher bits make. -/
theorem mem_treesLoop {n h offset : ℕ} (hoff : offset = n / 2 ^ h * 2 ^ h) {t : ℕ × ℕ} :
    t ∈ treesLoop n h offset ↔
      t.2 < h ∧ n / 2 ^ t.2 % 2 = 1 ∧ t.1 = (n / 2 ^ t.2 - 1) * 2 ^ t.2 := by
  induction h generalizing offset with
  | zero => simp [treesLoop]
  | succ h ih =>
    have hdiv : n / 2 ^ (h + 1) * 2 ^ (h + 1) = n / 2 ^ h / 2 * 2 * 2 ^ h := by
      rw [pow_succ, ← Nat.div_div_eq_div_mul]
      ring
    rw [treesLoop, Nat.shiftRight_eq_div_pow]
    rcases Nat.mod_two_eq_zero_or_one (n / 2 ^ h) with h0 | h1
    · rw [if_neg (by omega), ih (by rw [hoff, hdiv, Nat.div_mul_cancel (Nat.dvd_of_mod_eq_zero h0)])]
      constructor
      · rintro ⟨hlt, hrest⟩
        exact ⟨by omega, hrest⟩
      · rintro ⟨hlt, hbit, hrest⟩
        refine ⟨?_, hbit, hrest⟩
        rcases Nat.lt_succ_iff_lt_or_eq.mp hlt with hlt | heq
        · exact hlt
        · rw [heq] at hbit; omega
    · have hhere : offset = (n / 2 ^ h - 1) * 2 ^ h := by rw [hoff, hdiv]; congr 1; omega
      have hpos : 1 ≤ n / 2 ^ h := Nat.pos_of_ne_zero fun h0 => by simp [h0] at h1
      have hnext : offset + 2 ^ h = n / 2 ^ h * 2 ^ h := by
        rw [hhere, Nat.sub_mul, one_mul, Nat.sub_add_cancel (Nat.le_mul_of_pos_left _ hpos)]
      rw [if_pos h1, List.mem_cons, ih hnext]
      constructor
      · rintro (rfl | ⟨hlt, hrest⟩)
        · exact ⟨by simp, h1, hhere⟩
        · exact ⟨by omega, hrest⟩
      · rintro ⟨hlt, hbit, hrest⟩
        rcases Nat.lt_succ_iff_lt_or_eq.mp hlt with hlt | heq
        · exact .inr ⟨hlt, hbit, hrest⟩
        · refine .inl (Prod.ext ?_ heq)
          rw [hrest, hhere, heq]

theorem mem_naiveTrees {n : ℕ} (hn : n < 2 ^ 64) {t : ℕ × ℕ} :
    t ∈ Reference.naiveTrees n ↔
      n / 2 ^ t.2 % 2 = 1 ∧ t.1 = (n / 2 ^ t.2 - 1) * 2 ^ t.2 := by
  rw [Reference.naiveTrees, mem_treesLoop (by rw [Nat.div_eq_of_lt hn]; simp)]
  refine and_iff_right_of_imp fun h => ?_
  by_contra hge
  have : n / 2 ^ t.2 = 0 := Nat.div_eq_of_lt
    (lt_of_lt_of_le hn (Nat.pow_le_pow_right (by norm_num) (by omega)))
  simp [this] at h

/-- The loop reads the bits below `h` only. -/
theorem treesLoop_mod (n h k offset : ℕ) (hk : h ≤ k) :
    treesLoop (n % 2 ^ k) h offset = treesLoop n h offset := by
  induction h generalizing offset with
  | zero => rfl
  | succ h ih =>
    have hbit : (n % 2 ^ k) >>> h % 2 = n >>> h % 2 := by
      rw [Nat.shiftRight_eq_div_pow, Nat.shiftRight_eq_div_pow,
        show 2 ^ k = 2 ^ h * 2 ^ (k - h) by rw [← pow_add]; congr 1; omega,
        Nat.mod_mul_right_div_self, Nat.mod_mod_of_dvd]
      exact dvd_pow_self 2 (by omega)
    rw [treesLoop, treesLoop, hbit, ih _ (by omega), ih _ (by omega)]

/-- A tree starts at a multiple of its size and ends inside the list, whatever the length. -/
theorem tree_bounds {n : ℕ} {t : ℕ × ℕ} (ht : t ∈ Reference.naiveTrees n) :
    ∃ m, t.1 = m * 2 ^ t.2 ∧ t.1 + 2 ^ t.2 ≤ n := by
  rw [Reference.naiveTrees, ← treesLoop_mod n 64 64 0 le_rfl, ← Reference.naiveTrees,
    mem_naiveTrees (Nat.mod_lt _ (by norm_num))] at ht
  obtain ⟨hbit, hoff⟩ := ht
  refine ⟨_, hoff, ?_⟩
  have hpos : 1 ≤ n % 2 ^ 64 / 2 ^ t.2 :=
    Nat.pos_of_ne_zero fun h0 => by rw [h0] at hbit; simp at hbit
  calc t.1 + 2 ^ t.2 = n % 2 ^ 64 / 2 ^ t.2 * 2 ^ t.2 := by
        rw [hoff, Nat.sub_mul, one_mul, Nat.sub_add_cancel (Nat.le_mul_of_pos_left _ hpos)]
    _ ≤ n % 2 ^ 64 := Nat.div_mul_le_self _ _
    _ ≤ n := Nat.mod_le _ _

/-! ## What the naive loops compute -/

namespace Reference

theorem collapse_eq_level {k : ℕ} {M : List H} (h : M.length = 2 ^ k) :
    collapse parent M = level parent k M := by
  induction k generalizing M with
  | zero => rw [collapse, if_neg (by simp [h])]; rfl
  | succ k ih =>
    have hlt : 1 < M.length := by rw [h]; exact Nat.one_lt_two_pow (by omega)
    rw [collapse, if_pos hlt, ih (by rw [length_pairUp, h, pow_succ]; omega), level_succ]

/-- The root of the subtree is the node the levels have above it. -/
theorem naiveSubtreeRoot_eq {L : List H} {m k : ℕ} (h : m * 2 ^ k + 2 ^ k ≤ L.length) :
    naiveSubtreeRoot parent L (m * 2 ^ k) k = (level parent k L)[m]? := by
  have hlen : ((L.drop (m * 2 ^ k)).take (2 ^ k)).length = 2 ^ k := by
    rw [List.length_take, List.length_drop]
    omega
  rw [naiveSubtreeRoot, if_pos h, collapse_eq_level parent hlen,
    getElem?_level_slice parent L m le_rfl (by simp)]
  simp

/-- The siblings that the loop collects in a perfect tree are the path of the position, from the
    bottom up. -/
theorem naiveSiblings_eq {k pos : ℕ} {M : List H} (h : M.length = 2 ^ k) (hpos : pos < 2 ^ k) :
    ∃ ss, naiveSiblings parent M pos = some ss ∧ ss.length = k ∧ IsPath parent M pos ss := by
  induction k generalizing M pos with
  | zero => exact ⟨[], by rw [naiveSiblings, if_neg (by simp [h])], rfl, trivial⟩
  | succ k ih =>
    have hlt : 1 < M.length := by rw [h]; exact Nat.one_lt_two_pow (by omega)
    have hup : (pairUp parent M).length = 2 ^ k := by rw [length_pairUp, h, pow_succ]; omega
    obtain ⟨ss, hss, hlen, hp⟩ := ih hup (by rw [pow_succ] at hpos; omega : pos / 2 < 2 ^ k)
    have hs : sib pos < M.length := by
      rw [h, pow_succ]
      rw [pow_succ] at hpos
      unfold sib
      split <;> omega
    have hsib : (if pos % 2 = 0 then M[pos + 1]? else M[pos - 1]?) = some M[sib pos] := by
      rw [← List.getElem?_eq_getElem hs, sib]
      split <;> rfl
    refine ⟨M[sib pos] :: ss, ?_, by simp [hlen], List.getElem?_eq_getElem hs, hp⟩
    rw [naiveSiblings, if_pos hlt, hsib, hss]
    rfl

theorem naiveSubtreeRoot_of_mem {L : List H} {t : ℕ × ℕ} (ht : t ∈ naiveTrees L.length) :
    naiveSubtreeRoot parent L t.1 t.2 = (level parent t.2 L)[t.1 >>> t.2]? ∧
      t.1 >>> t.2 < (level parent t.2 L).length := by
  obtain ⟨m, hm, hle⟩ := tree_bounds ht
  have hshift : t.1 >>> t.2 = m := by
    rw [hm, Nat.shiftRight_eq_div_pow, Nat.mul_div_cancel _ (by positivity)]
  rw [hm] at hle
  refine ⟨by rw [hshift, hm, naiveSubtreeRoot_eq parent hle], ?_⟩
  rw [hshift, length_level, Nat.lt_iff_add_one_le, Nat.le_div_iff_mul_le (by positivity),
    Nat.add_mul, one_mul]
  exact hle

end Reference

theorem fillRoots_congr {f g : ℕ → ℕ → Option H} {trees : List (ℕ × ℕ)}
    (h : ∀ t ∈ trees, f t.1 t.2 = g t.1 t.2) (v : List (Option H)) :
    fillRoots f trees v = fillRoots g trees v := by
  unfold fillRoots
  induction trees generalizing v with
  | nil => rfl
  | cons t ts ih =>
    rw [List.foldlM_cons, List.foldlM_cons, h t (by simp)]
    exact congrArg _ (funext fun v' => ih (fun t' ht' => h t' (by simp [ht'])) v')

/-- The filled vector holds at each height the root of a tree of that height, if there is one. -/
theorem fillRoots_spec {f : ℕ → ℕ → Option H} {trees : List (ℕ × ℕ)}
    (hf : ∀ t ∈ trees, (f t.1 t.2).isSome) (v : List (Option H)) :
    ∃ w, fillRoots f trees v = some w ∧ ∀ k,
      (∀ t ∈ trees, t.2 ≠ k) ∧ w[k]?.join = v[k]?.join ∨
        ∃ t ∈ trees, t.2 = k ∧ w[k]?.join = f t.1 t.2 := by
  induction trees generalizing v with
  | nil => exact ⟨v, rfl, fun k => .inl ⟨by simp, rfl⟩⟩
  | cons t ts ih =>
    obtain ⟨r, hr⟩ := Option.isSome_iff_exists.mp (hf t (by simp))
    obtain ⟨w, hw, hk⟩ := ih (fun t' ht' => hf t' (by simp [ht'])) (setAt v t.2 (some r))
    refine ⟨w, by rw [fillRoots, List.foldlM_cons, hr]; exact hw, fun k => ?_⟩
    rcases hk k with ⟨hno, heq⟩ | ⟨t', ht', hh, heq⟩
    · rw [join_getElem?_setAt] at heq
      by_cases hkt : k = t.2
      · exact .inr ⟨t, by simp, hkt.symm, by rw [heq, if_pos hkt, hr]⟩
      · refine .inl ⟨?_, by rw [heq, if_neg hkt]⟩
        intro t' ht'
        rcases List.mem_cons.mp ht' with rfl | ht'
        · exact Ne.symm hkt
        · exact hno t' ht'
    · exact .inr ⟨t', by simp [ht'], hh, heq⟩

theorem join_getElem?_emptyRoots (len k : ℕ) :
    (emptyRoots len : List (Option H))[k]?.join = none := by
  rw [emptyRoots, List.getElem?_replicate]
  split <;> rfl

namespace Reference

/-- `naive_roots` returns on every list, and its roots are the peaks of the forest. -/
theorem naiveRoots_spec (L : List H) :
    ∃ v, naiveRoots parent L = some v ∧
      (L.length < 2 ^ 64 → ∀ k : ℕ, v[k]?.join = peak parent k L) := by
  have hsome : ∀ t ∈ naiveTrees L.length, (naiveSubtreeRoot parent L t.1 t.2).isSome := by
    intro t ht
    obtain ⟨h1, h2⟩ := naiveSubtreeRoot_of_mem parent ht
    rw [h1, List.getElem?_eq_getElem h2]
    rfl
  obtain ⟨v, hv, hk⟩ := fillRoots_spec hsome (emptyRoots L.length)
  refine ⟨v, hv, fun hlen k => ?_⟩
  rw [peak_eq_getElem?]
  rcases hk k with ⟨hno, heq⟩ | ⟨t, ht, rfl, heq⟩
  · rw [heq, join_getElem?_emptyRoots, if_neg]
    exact fun hbit => hno ((L.length / 2 ^ k - 1) * 2 ^ k, k)
      ((mem_naiveTrees hlen).mpr ⟨hbit, rfl⟩) rfl
  · obtain ⟨hbit, hoff⟩ := (mem_naiveTrees hlen).mp ht
    rw [heq, if_pos hbit, (naiveSubtreeRoot_of_mem parent ht).1, hoff,
      Nat.shiftRight_eq_div_pow, Nat.mul_div_cancel _ (by positivity)]

end Reference

/-! ## `Commits`, read at each height -/

namespace Stump

variable {parent} {s : Stump H} {L : List H}

theorem Commits.length_lt (h : s.Commits parent L) : L.length < 2 ^ 64 := by
  rw [← h.numLeaves]
  exact s.numLeaves.toNat_lt

/-- What a stump that commits to `L` answers at a height is the peak of `L` there. -/
theorem Commits.rootAt (h : s.Commits parent L) (k : ℕ) : s.rootAt k = peak parent k L := by
  obtain ⟨v, hv, hpeak⟩ := Reference.naiveRoots_spec parent L
  have hnorm : normalize v = normalize s.roots := by
    have := h.roots
    rw [hv] at this
    exact Option.some.inj this
  rw [← hpeak h.length_lt]
  exact (normalize_eq_iff.mp hnorm k).symm

theorem Commits.of_rootAt (hn : s.numLeaves.toNat = L.length)
    (h : ∀ k, s.rootAt k = peak parent k L) : s.Commits parent L := by
  obtain ⟨v, hv, hpeak⟩ := Reference.naiveRoots_spec parent L
  refine ⟨hn, ?_⟩
  rw [hv, Option.map_some, normalized, normalize_eq_iff.mpr fun k => ?_]
  rw [hpeak (hn ▸ s.numLeaves.toNat_lt)]
  exact (h k).symm

/-- The roots and the count bind the leaves, where the hash of a pair binds the pair. This is the
    only fact about the hash that the accumulator's soundness rests on. -/
theorem Commits.unique (hinj : PairInjective parent) {M : List H} (hL : s.Commits parent L)
    (hM : s.Commits parent M) : L = M :=
  eq_of_peak_eq hinj (hL.numLeaves.symm.trans hM.numLeaves)
    fun k => (hL.rootAt k).symm.trans (hM.rootAt k)

/-- Only the count and the normalised roots matter. -/
theorem Commits.congr {s' : Stump H} (h : s.Commits parent L)
    (hn : s'.numLeaves = s.numLeaves) (hr : s'.normalized = s.normalized) :
    s'.Commits parent L :=
  ⟨by rw [hn, h.numLeaves], by rw [h.roots, hr]⟩

end Stump
end Accumulator
end Hazync
