import Hazync.Accumulator.Forest
import Hazync.Accumulator.SwapAndShrink
import Hazync.Lib.LevelCache
import Hazync.Lib.Runs

/-!
# The level cache over every history

Each operation of the forest patches the cached levels by its own partial rule: a carry, a
truncation from below, a repair along one path. One lemma per rule says what it does to `IsCache`
or `IsCacheExcept`; the operations are then two or three such steps, and a history is a fold of
operations. The leaves meanwhile follow a plain list (`ListModel`), so what a well-kept cache
serves is what `reference` computes from that list.

## Two forms of the invariant

`IsCache` is the form the proofs use: it follows the recursion of the loops, one level at a time.
`CacheInvariant`, at the end of the file, is the form the comment on `internals` has, over the
indices of the levels; `Kept.cacheInvariant` takes one to the other. A delete passes through a state
in which the levels above one slot are wrong, and `IsCacheExcept` is what holds there;
`isCache_repairLevels` closes the gap again.

Which index is in range is a matter of the leaves alone. So the operations are related to those of
the plain list by `Option.Rel`: both sides panic, or neither does.
-/

namespace Hazync
namespace Accumulator

open MerkleForest SwapRemove

variable {H : Type} {parent : H → H → H}

/-! ## One lemma per patch -/

namespace Forest

theorem parentAt_append {L : List H} {y : H} (x : H) (hy : L.getLast? = some y)
    (h : (L ++ [x]).length - 2 + 1 < (L ++ [x]).length) :
    parentAt parent (L ++ [x]) ((L ++ [x]).length - 2) h = parent y x := by
  obtain ⟨M, rfl⟩ := List.getLast?_eq_some_iff.mp hy
  simp [parentAt]

theorem getLast?_isSome_of_odd {L : List H} (h : L.length % 2 = 1) :
    ∃ y, L.getLast? = some y := by
  have hne : L ≠ [] := by rintro rfl; simp at h
  exact ⟨_, List.getLast?_eq_some_getLast hne⟩

/-- The carry of `add`: where the new leaf completes a pair, the level above gets the node of it,
    and that may complete a pair there. -/
theorem isCache_completePairs {L : List H} {C : List (List H)} (h : IsCache parent L C) (x : H) :
    IsCache parent (L ++ [x]) (completePairs parent (L ++ [x]) C) := by
  induction C generalizing L x with
  | nil =>
    rw [isCache_nil] at h
    rcases L with _ | ⟨a, _ | ⟨b, L⟩⟩
    · simp [completePairs]
    · simp [completePairs, parentAt]
    · simp only [List.length_cons] at h
      omega
  | cons u C ih =>
    obtain ⟨hlen, rfl, hC⟩ := h
    rw [completePairs]
    rcases Nat.mod_two_eq_zero_or_one L.length with he | ho
    · rw [dif_neg (by rw [List.length_append, List.length_singleton]; omega)]
      exact ⟨by simp; omega, (pairUp_append_of_even parent x he).symm, hC⟩
    · obtain ⟨y, hy⟩ := getLast?_isSome_of_odd ho
      rw [dif_pos (by rw [List.length_append, List.length_singleton]; omega)]
      dsimp only
      rw [parentAt_append x hy]
      exact ⟨by simp; omega, (pairUp_append_of_odd parent x ho hy).symm, ih hC _⟩

/-- A level is dropped only when everything above it is. -/
theorem popEmpty_cons (u : List H) (C : List (List H)) :
    popEmpty (u :: C) = if popEmpty C = [] ∧ u = [] then [] else u :: popEmpty C := by
  unfold popEmpty
  induction C using List.reverseRecOn with
  | nil =>
    cases u with
    | nil => simp [List.rdropWhile]
    | cons a u => simp [List.rdropWhile]
  | append_singleton C v ih =>
    cases v with
    | nil =>
      rw [← List.cons_append, List.rdropWhile_concat_pos _ _ _ (by rfl),
        List.rdropWhile_concat_pos _ _ _ (by rfl), ih]
    | cons a v =>
      rw [← List.cons_append, List.rdropWhile_concat_neg _ _ _ (by simp),
        List.rdropWhile_concat_neg _ _ _ (by simp), if_neg (by simp)]
      rfl

/-- Truncating from below and popping what is left empty caches any prefix of the list. A node of
    the shorter list is over a pair that was there before, so what is left of a level needs no new
    hash. -/
theorem isCache_truncateLevels {L : List H} {C : List (List H)} (h : IsCache parent L C)
    {m : ℕ} (hm : m ≤ L.length) :
    IsCache parent (L.take m) (popEmpty (truncateLevels (L.take m) C)) := by
  induction C generalizing L m with
  | nil =>
    rw [isCache_nil] at h
    show IsCache parent (L.take m) []
    rw [isCache_nil, List.length_take]
    omega
  | cons u C ih =>
    obtain ⟨hlen, rfl, hC⟩ := h
    have hhalf : m / 2 ≤ (pairUp parent L).length := by rw [length_pairUp]; omega
    have hup : (pairUp parent L).take ((L.take m).length / 2) = pairUp parent (L.take m) := by
      rw [pairUp_take, List.length_take, Nat.min_eq_left hm]
    have hrest := ih hC hhalf
    rw [← pairUp_take] at hrest
    rw [truncateLevels, hup, popEmpty_cons]
    rcases Nat.lt_or_ge m 2 with hlt | hge
    · -- nothing is paired any more, and above an empty level all are empty
      have hnil : pairUp parent (L.take m) = [] := by
        rw [← List.length_eq_zero_iff, length_pairUp, List.length_take]
        omega
      rw [hnil] at hrest ⊢
      have htop : popEmpty (truncateLevels [] C) = [] := by
        cases hpop : popEmpty (truncateLevels ([] : List H) C) with
        | nil => rfl
        | cons v D => rw [hpop] at hrest; exact absurd hrest.1 (by simp)
      rw [if_pos ⟨htop, rfl⟩, isCache_nil, List.length_take]
      omega
    · have hne : pairUp parent (L.take m) ≠ [] := by
        intro hnil
        have := congrArg List.length hnil
        rw [length_pairUp, List.length_take, List.length_nil] at this
        omega
      rw [if_neg (fun hc => hne hc.2)]
      exact ⟨by rw [List.length_take]; omega, rfl, hrest⟩

theorem isCache_dropLast {L : List H} {C : List (List H)} (h : IsCache parent L C) :
    IsCache parent L.dropLast (popEmpty (truncateLevels L.dropLast C)) := by
  rw [List.dropLast_eq_take]
  exact isCache_truncateLevels h (Nat.sub_le _ _)

/-- Growing a cache that is wrong above `i` leaves it wrong above `i` only. The parent that
    `undo_delete` writes where one stands already is the same or is above `i`. -/
theorem isCacheExcept_restorePairs {L : List H} {C : List (List H)} {i : ℕ}
    (h : IsCacheExcept parent L i C) (hi : i ≤ L.length) (x : H) :
    IsCacheExcept parent (L ++ [x]) i (restorePairs parent (L ++ [x]) C) := by
  induction C generalizing L i x with
  | nil =>
    have hlen : L.length < 2 := h
    rcases L with _ | ⟨a, _ | ⟨b, L⟩⟩
    · simp [restorePairs, IsCacheExcept]
    · simp [restorePairs, parentAt, IsCacheExcept]
    · simp only [List.length_cons] at hlen
      omega
  | cons u C ih =>
    obtain ⟨hlen, hu, hval, hC⟩ := h
    rw [restorePairs]
    rcases Nat.mod_two_eq_zero_or_one L.length with he | ho
    · rw [dif_neg (by rw [List.length_append, List.length_singleton]; omega)]
      refine ⟨by simp; omega, by simp; omega, ?_, hC⟩
      rwa [pairUp_append_of_even parent x he]
    · obtain ⟨y, hy⟩ := getLast?_isSome_of_odd ho
      rw [dif_pos (by rw [List.length_append, List.length_singleton]; omega)]
      dsimp only
      rw [parentAt_append x hy, if_pos (by rw [List.length_append, List.length_singleton]; omega)]
      refine ⟨by simp; omega, by simp; omega, fun j hj => ?_, ih hC (by omega) _⟩
      rw [pairUp_append_of_odd parent x ho hy, List.getElem?_append, List.getElem?_append,
        length_pairUp, hu, hval j hj]

/-- Recomputing the ancestors of `i` mends a cache that is wrong above `i` only. The loop stops
    where `i` has no partner, and there no level above depends on it. -/
theorem isCache_repairLevels {L : List H} {C : List (List H)} {i : ℕ}
    (h : IsCacheExcept parent L i C) (hi : i < L.length) :
    IsCache parent L (repairLevels parent L i C) := by
  induction C generalizing L i with
  | nil => exact h
  | cons u C ih =>
    obtain ⟨hlen, hu, hval, hC⟩ := h
    rw [repairLevels]
    by_cases hpair : 2 * (i / 2) + 1 < L.length
    · have hlt : i / 2 < u.length := by omega
      rw [dif_pos hpair, if_pos hlt]
      dsimp only
      have hup : u.set (i / 2) (parentAt parent L (2 * (i / 2)) hpair) = pairUp parent L := by
        apply List.ext_getElem?
        intro j
        rw [List.getElem?_set]
        by_cases hj : i / 2 = j
        · subst hj
          rw [if_pos rfl, if_pos hlt, getElem?_pairUp, List.getElem?_eq_getElem hpair,
            List.getElem?_eq_getElem (by omega)]
          rfl
        · rw [if_neg hj, hval j (Ne.symm hj)]
      refine ⟨hlen, hup, ih (hC.set _) ?_⟩
      rwa [List.length_set]
    · -- `i` is the unpaired last entry: nothing stands above it
      rw [dif_neg hpair]
      have hC' := hC.isCache (by omega)
      refine ⟨hlen, ?_, hC'⟩
      apply List.ext_getElem?
      intro j
      by_cases hj : j = i / 2
      · rw [List.getElem?_eq_none (by omega), List.getElem?_eq_none (by
          rw [length_pairUp]; omega)]
      · exact hval j hj

/-- The levels that `from_leaves` builds are the cache of the leaves, by definition of both. -/
theorem isCache_buildLevels (L : List H) : IsCache parent L (buildLevels parent L) := by
  induction L using buildLevels.induct parent with
  | case1 L hlen up hnil =>
    have : up.length = L.length / 2 := length_pairUp parent L
    rw [List.isEmpty_iff.mp hnil, List.length_nil] at this
    omega
  | case2 L hlen up hne ih =>
    rw [buildLevels, if_pos hlen]
    dsimp only
    rw [if_neg hne]
    exact ⟨hlen, rfl, ih⟩
  | case3 L hlen =>
    rw [buildLevels, if_neg hlen, isCache_nil]
    omega

/-! ## What a kept cache serves -/

section Reads

variable {F : Forest H}

theorem level_of_isCache (h : IsCache parent F.leaves F.internals) {k : ℕ}
    (hk : 0 < (MerkleForest.level parent k F.leaves).length) :
    F.level k = some (MerkleForest.level parent k F.leaves) := by
  cases k with
  | zero => rfl
  | succ k =>
    rw [length_level] at hk
    rw [level, if_neg (by omega), Nat.add_sub_cancel, h.getElem? hk]

theorem roots_of_isCache (h : IsCache parent F.leaves F.internals) :
    F.roots = Reference.naiveRoots parent F.leaves := by
  refine fillRoots_congr (fun t ht => ?_) _
  obtain ⟨hval, hlt⟩ := Reference.naiveSubtreeRoot_of_mem parent ht
  rw [hval, subtreeRoot, level_of_isCache h (Nat.lt_of_le_of_lt (Nat.zero_le _) hlt)]
  rfl

theorem mapM_range {β : Type} {f : ℕ → Option β} {v : List β}
    (h : ∀ k < v.length, f k = v[k]?) : (List.range v.length).mapM f = some v := by
  induction v using List.reverseRecOn with
  | nil => rfl
  | append_singleton v x ih =>
    have hlast := h v.length (by simp)
    rw [List.getElem?_concat_length] at hlast
    have hinit : (List.range v.length).mapM f = some v := ih fun k hk => by
      rw [h k (by simp; omega), List.getElem?_append_left hk]
    rw [List.length_append, List.length_singleton, List.range_succ, List.mapM_append, hinit]
    simp [hlast]

/-- The siblings `prove` reads off the cache are those of the path. -/
theorem siblings_of_isCache (h : IsCache parent F.leaves F.internals) {i : ℕ} {ss : List H}
    (hp : IsPath parent F.leaves i ss) :
    (List.range ss.length).mapM (fun k => do
      let l ← F.level k
      l[(i >>> k) ^^^ 1]?) = some ss := by
  refine mapM_range fun k hk => ?_
  have hsib := (isPath_iff parent).mp hp k hk
  have hlt : 0 < (MerkleForest.level parent k F.leaves).length := by
    rw [List.getElem?_eq_getElem hk] at hsib
    exact Nat.lt_of_le_of_lt (Nat.zero_le _) (List.getElem?_eq_some_iff.mp hsib).1
  rw [level_of_isCache h hlt, xor_one_eq_sib, Nat.shiftRight_eq_div_pow, ← hsib]
  rfl

/-- A proof off a kept cache is the one that `naive_prove` computes: the same tree, the same
    siblings, the same leaf, and no panic where it has none. -/
theorem prove_of_isCache (h : IsCache parent F.leaves F.internals) (i : ℕ) :
    F.prove i = Reference.naiveProve parent F.leaves i := by
  rw [prove, Reference.naiveProve, show F.trees = Reference.naiveTrees F.leaves.length from rfl]
  cases hfind : (Reference.naiveTrees F.leaves.length).find?
      (fun t : ℕ × ℕ => t.1 ≤ i ∧ i < t.1 + 2 ^ t.2) with
  | none => rfl
  | some t =>
    obtain ⟨offset, height⟩ := t
    obtain ⟨m, hm, hle⟩ := tree_bounds (List.mem_of_find?_eq_some hfind)
    have hin : offset ≤ i ∧ i < offset + 2 ^ height := by
      simpa using List.find?_some hfind
    dsimp only at hm hle
    subst hm
    have hslice : ((F.leaves.drop (m * 2 ^ height)).take (2 ^ height)).length = 2 ^ height := by
      rw [List.length_take, List.length_drop]
      omega
    obtain ⟨ss, hss, hlen, hp⟩ :=
      Reference.naiveSiblings_eq parent hslice (show i - m * 2 ^ height < 2 ^ height by omega)
    subst hlen
    have hpath := isPath_of_slice parent (by omega) hp
    rw [show m * 2 ^ ss.length + (i - m * 2 ^ ss.length) = i by omega] at hpath
    have hsib := siblings_of_isCache h hpath
    simp only [Option.bind_eq_bind, Option.bind_some, if_pos hle, hss] at hsib ⊢
    rw [hsib]
    rfl

end Reads

end Forest

/-- The proof `reference` makes of a leaf in range says where the leaf is: in the tree whose bounds
    hold the index, at the offset in it, with the siblings of the levels. -/
theorem Reference.naiveProve_located {L : List H} {i : ℕ} (hi : i < L.length)
    (hL : L.length < 2 ^ 64) :
    ∃ p, Reference.naiveProve parent L i = some p ∧ Located parent L i p := by
  obtain ⟨k, hin⟩ := exists_inTree hi
  -- the tree `find` stops at contains `i`, so it is the tree of `i`
  have htree : ((L.length / 2 ^ k - 1) * 2 ^ k, k) ∈ Reference.naiveTrees L.length :=
    (mem_naiveTrees hL).mpr ⟨hin.1, rfl⟩
  have hsome : ((Reference.naiveTrees L.length).find?
      (fun t : ℕ × ℕ => t.1 ≤ i ∧ i < t.1 + 2 ^ t.2)).isSome := by
    rw [List.find?_isSome]
    refine ⟨_, htree, ?_⟩
    have hdiv : L.length / 2 ^ k - 1 = i / 2 ^ k := by rw [← hin.2, Nat.add_sub_cancel]
    have h1 := Nat.div_add_mod' i (2 ^ k)
    have h2 := Nat.mod_lt i (show 2 ^ k > 0 by positivity)
    simp only [hdiv, decide_eq_true_iff]
    omega
  obtain ⟨⟨offset, height⟩, hfind⟩ := Option.isSome_iff_exists.mp hsome
  have hmem := List.mem_of_find?_eq_some hfind
  have hrange : offset ≤ i ∧ i < offset + 2 ^ height := by simpa using List.find?_some hfind
  obtain ⟨hodd, hoff⟩ := (mem_naiveTrees hL).mp hmem
  obtain ⟨m, hm, hle⟩ := tree_bounds hmem
  dsimp only at hodd hoff hm hle
  subst hm
  have hpos : 0 < 2 ^ height := by positivity
  have hmq : m = L.length / 2 ^ height - 1 := Nat.eq_of_mul_eq_mul_right hpos hoff
  have hquot : i / 2 ^ height = m := by
    apply Nat.div_eq_of_lt_le hrange.1
    rw [Nat.add_mul, one_mul]
    exact hrange.2
  have htree : InTree L.length i height := by
    refine ⟨hodd, ?_⟩
    rw [hquot, hmq]
    exact Nat.sub_add_cancel (Nat.pos_of_ne_zero fun h0 => by rw [h0] at hodd; simp at hodd)
  have hloc : i - m * 2 ^ height = i % 2 ^ height := by
    have := Nat.div_add_mod' i (2 ^ height)
    rw [hquot] at this
    omega
  have hslice : ((L.drop (m * 2 ^ height)).take (2 ^ height)).length = 2 ^ height := by
    rw [List.length_take, List.length_drop]
    omega
  obtain ⟨ss, hss, hlen, hp⟩ :=
    Reference.naiveSiblings_eq parent hslice (show i - m * 2 ^ height < 2 ^ height by omega)
  refine ⟨{ leaf := L[i], position := UInt64.ofNat (i - m * 2 ^ height), siblings := ss }, ?_, ?_⟩
  · simp only [Reference.naiveProve, hfind, Option.bind_eq_bind, Option.bind_some, if_pos hle, hss,
      List.getElem?_eq_getElem hi]
  · refine ⟨List.getElem?_eq_getElem hi, ?_, by rwa [hlen], ?_⟩
    · subst hlen
      have hpath := isPath_of_slice parent (by omega) hp
      rwa [show m * 2 ^ ss.length + (i - m * 2 ^ ss.length) = i by omega] at hpath
    · rw [hlen]
      show (UInt64.ofNat (i - m * 2 ^ height)).toNat = _
      rw [UInt64.toNat_ofNat', hloc]
      exact Nat.mod_eq_of_lt (lt_of_le_of_lt (Nat.mod_le _ _) (by omega))

/-! ## The operations against a plain list -/

namespace ListModel

/-- What a delete does to the leaves alone; `none` is an index out of range. -/
def delete (L : List H) (i : ℕ) : Option (List H) :=
  if i < L.length then some (swapRemove L i) else none

def undoDelete (L : List H) (i : ℕ) (gone : H) : Option (List H) :=
  if i ≤ L.length then some (unswap L i gone) else none

def undoOp (L : List H) : ForestOp H → Option (List H)
  | .added => some L.dropLast
  | .deleted pos leaf => undoDelete L pos leaf

def step (L : List H) : Forest.Op H → Option (List H)
  | .add leaf => some (L ++ [leaf])
  | .delete i => delete L i
  | .undoAdd => some L.dropLast
  | .undoDelete i gone => undoDelete L i gone
  | .undoOps ops => ops.reverse.foldlM undoOp L
  | .beginJournal => some L
  | .takeJournal => some L

def run (L : List H) (ops : List (Forest.Op H)) : Option (List H) := ops.foldlM step L

end ListModel

namespace Forest

/-- `F` is a forest over `L` whose cache is kept. -/
structure Kept (parent : H → H → H) (F : Forest H) (L : List H) : Prop where
  leaves : F.leaves = L
  cache : IsCache parent F.leaves F.internals

section Index

variable [DecidableEq H] (F : Forest H) (leaf : H) (pos : ℕ)

/-- The index operations touch the two maps only. -/
theorem indexInsert_frame : F.indexInsert leaf pos =
    { F with
      index := (F.indexInsert leaf pos).index
      dups := (F.indexInsert leaf pos).dups } := by
  unfold indexInsert
  dsimp only
  split
  · rfl
  · split <;> rfl

theorem indexRemove_frame : F.indexRemove leaf pos =
    { F with
      index := (F.indexRemove leaf pos).index
      dups := (F.indexRemove leaf pos).dups } := by
  unfold indexRemove
  dsimp only
  split
  · rfl
  · split
    · split
      · split <;> rfl
      · rfl
    · split
      · rfl
      · split <;> rfl

@[simp] theorem indexInsert_leaves : (F.indexInsert leaf pos).leaves = F.leaves := by
  rw [indexInsert_frame]

@[simp] theorem indexInsert_internals : (F.indexInsert leaf pos).internals = F.internals := by
  rw [indexInsert_frame]

@[simp] theorem indexInsert_journal : (F.indexInsert leaf pos).journal = F.journal := by
  rw [indexInsert_frame]

@[simp] theorem indexRemove_leaves : (F.indexRemove leaf pos).leaves = F.leaves := by
  rw [indexRemove_frame]

@[simp] theorem indexRemove_internals : (F.indexRemove leaf pos).internals = F.internals := by
  rw [indexRemove_frame]

@[simp] theorem indexRemove_journal : (F.indexRemove leaf pos).journal = F.journal := by
  rw [indexRemove_frame]

end Index

theorem Kept.new : Kept parent (new : Forest H) [] := ⟨rfl, by simp [Forest.new]⟩

variable [DecidableEq H] {F : Forest H} {L : List H}

theorem Kept.fromLeaves (L : List H) : Kept parent (fromLeaves parent L) L :=
  ⟨rfl, isCache_buildLevels L⟩

theorem Kept.add (h : Kept parent F L) (x : H) : Kept parent (F.add parent x) (L ++ [x]) := by
  obtain ⟨rfl, hC⟩ := h
  refine ⟨by simp [Forest.add, record], ?_⟩
  simpa [Forest.add, record] using isCache_completePairs hC x

theorem Kept.undoAdd (h : Kept parent F L) : Kept parent (F.undoAdd).2 L.dropLast := by
  obtain ⟨rfl, hC⟩ := h
  unfold Forest.undoAdd
  split
  · rename_i hnone
    rw [List.getLast?_eq_none_iff.mp hnone] at hC ⊢
    exact ⟨List.getLast?_eq_none_iff.mp hnone, by rwa [List.getLast?_eq_none_iff.mp hnone]⟩
  · exact ⟨by simp, by simpa using isCache_dropLast hC⟩

/-- A delete panics exactly where the plain list has no such index, and else it is a swap-remove of
    the leaves. -/
theorem Kept.delete (h : Kept parent F L) (i : ℕ) :
    Option.Rel (Kept parent) (F.delete parent i) (ListModel.delete L i) := by
  obtain ⟨rfl, hC⟩ := h
  unfold Forest.delete ListModel.delete
  by_cases hi : i < F.leaves.length
  · obtain ⟨moved, hmoved, -⟩ := getLast?_of_lt hi
    rw [if_pos hi, List.getElem?_eq_getElem hi]
    simp only [Option.bind_eq_bind, Option.bind_some, record, hmoved]
    have hdrop := isCache_dropLast hC
    by_cases hlast : i = F.leaves.length - 1
    · rw [swapRemove_last (by omega)]
      simp only [hlast, ne_eq, not_true_eq_false, if_false]
      exact .some ⟨by simp, by simpa using hdrop⟩
    · simp only [ne_eq, hlast, not_false_eq_true, if_true]
      refine .some ⟨?_, ?_⟩
      · simp [repair, swapRemove_of_lt hmoved]
      · simp only [repair, indexInsert_leaves, indexRemove_leaves, indexInsert_internals,
          indexRemove_internals]
        exact isCache_repairLevels ((hdrop.except i).set moved) (by simp; omega)
  · rw [if_neg hi, List.getElem?_eq_none (by omega)]
    exact .none

/-- And its inverse puts the leaf back, which it can at any index up to the length. -/
theorem Kept.undoDelete (h : Kept parent F L) (i : ℕ) (gone : H) :
    Option.Rel (Kept parent) (F.undoDelete parent i gone) (ListModel.undoDelete L i gone) := by
  obtain ⟨rfl, hC⟩ := h
  unfold Forest.undoDelete ListModel.undoDelete unswap
  by_cases hlast : i = F.leaves.length
  · subst hlast
    simp only [if_true, le_refl, Option.bind_eq_bind, Option.bind_some, repair,
      indexInsert_leaves, indexInsert_internals]
    have hrest := isCacheExcept_restorePairs (hC.except F.leaves.length) le_rfl gone
    exact .some ⟨rfl, isCache_repairLevels hrest (by simp)⟩
  · by_cases hi : i < F.leaves.length
    · simp only [if_neg hlast, if_pos hi.le, List.getElem?_eq_getElem hi, Option.bind_eq_bind,
        Option.bind_some, repair, indexInsert_leaves, indexInsert_internals, indexRemove_leaves,
        indexRemove_internals]
      have hrest := isCacheExcept_restorePairs ((hC.except i).set gone)
        (by rw [List.length_set]; exact hi.le) F.leaves[i]
      exact .some ⟨rfl, isCache_repairLevels hrest (by simp; omega)⟩
    · simp only [if_neg hlast, List.getElem?_eq_none (Nat.le_of_not_lt hi)]
      rw [if_neg (by omega)]
      exact .none

theorem Kept.undoOps (h : Kept parent F L) (ops : List (ForestOp H)) :
    Option.Rel (Kept parent) (F.undoOps parent ops) (ops.reverse.foldlM ListModel.undoOp L) := by
  refine Runs.rel_foldlM (fun F L op h => ?_) ops.reverse (a := F.takeJournal) ⟨h.leaves, h.cache⟩
  cases op with
  | added => exact .some h.undoAdd
  | deleted pos leaf => exact h.undoDelete pos leaf

/-- **Every operation keeps the cache and follows the list**, panicking exactly where the list
has no such index. -/
theorem Kept.step (h : Kept parent F L) (op : Op H) :
    Option.Rel (Kept parent) (F.step parent op) (ListModel.step L op) := by
  cases op with
  | add leaf => exact .some (h.add leaf)
  | delete i => exact h.delete i
  | undoAdd => exact .some h.undoAdd
  | undoDelete i gone => exact h.undoDelete i gone
  | undoOps ops => exact h.undoOps ops
  | beginJournal => exact .some ⟨h.leaves, h.cache⟩
  | takeJournal => exact .some ⟨h.leaves, h.cache⟩

theorem Kept.run (h : Kept parent F L) (ops : List (Op H)) :
    Option.Rel (Kept parent) (F.run parent ops) (ListModel.run L ops) :=
  Runs.rel_foldlM (fun _ _ op h => h.step op) ops h

/-! ## The invariant in the terms of `internals` -/

/-- What the comment on `internals` promises. -/
structure CacheInvariant (parent : H → H → H) (F : Forest H) : Prop where
  /-- A level above the leaves is cached with a slot for each pair of the level below; an odd node
      at the end has none. -/
  length : ∀ (k : ℕ) (u : List H), F.internals[k]? = some u → u.length = F.levelLen k / 2
  /-- A slot is the hash of the pair below it. -/
  node : ∀ (k : ℕ) (u : List H), F.internals[k]? = some u → ∃ below, F.level k = some below ∧
    ∀ j, u[j]? = Option.map₂ parent below[2 * j]? below[2 * j + 1]?
  /-- The levels stop where there is no pair left: an empty one is never kept at the top. -/
  noEmpty : F.internals.getLast? ≠ some []

omit [DecidableEq H] in
theorem level_below {k : ℕ} {u : List H} (h : IsCache parent F.leaves F.internals)
    (hu : F.internals[k]? = some u) :
    F.level k = some (MerkleForest.level parent k F.leaves) ∧
      u = pairUp parent (MerkleForest.level parent k F.leaves) := by
  obtain ⟨rfl, hpos⟩ := h.of_getElem? hu
  rw [level_succ'] at hpos ⊢
  refine ⟨level_of_isCache h ?_, rfl⟩
  rw [length_pairUp] at hpos
  omega

omit [DecidableEq H] in
/-- What is kept is what the comment on `internals` says. -/
theorem Kept.cacheInvariant (h : Kept parent F L) : CacheInvariant parent F where
  length k u hu := by
    obtain ⟨hlevel, rfl⟩ := level_below h.cache hu
    have hlen : F.levelLen k = (MerkleForest.level parent k F.leaves).length := by
      unfold levelLen
      unfold level at hlevel
      split at hlevel <;> rename_i hk
      · rw [if_pos hk]
        exact congrArg List.length (Option.some.inj hlevel)
      · rw [if_neg hk, hlevel]
        rfl
    rw [length_pairUp, hlen]
  node k u hu := by
    obtain ⟨hlevel, rfl⟩ := level_below h.cache hu
    exact ⟨_, hlevel, getElem?_pairUp parent _⟩
  noEmpty hlast := by
    rw [List.getLast?_eq_getElem?] at hlast
    exact absurd (h.cache.of_getElem? hlast).2 (by simp)

/-- **The cache is right over every history.** From an empty forest or one built over any leaves,
    through any operations whose indices are in range, the forest does not panic, its leaves are
    those of the plain list, its levels are what they cache, and its roots and proofs are those
    `reference` computes from the leaves. The undo operations need not undo anything: any position
    and any leaf will do, so long as the position is in range. -/
theorem history_cacheInvariant {F₀ : Forest H}
    (hstart : F₀ = new ∨ ∃ L₀, F₀ = fromLeaves parent L₀) {ops : List (Op H)}
    (hrange : ListModel.run F₀.leaves ops = some L) :
    ∃ F, F₀.run parent ops = some F ∧ F.leaves = L ∧ CacheInvariant parent F ∧
      F.roots = Reference.naiveRoots parent L ∧
      ∀ i, F.prove i = Reference.naiveProve parent L i := by
  have hkept : Kept parent F₀ F₀.leaves := by
    rcases hstart with rfl | ⟨L₀, rfl⟩
    · exact .new
    · exact .fromLeaves L₀
  have hrel := hkept.run ops
  rw [hrange] at hrel
  cases hrun : F₀.run parent ops with
  | none => rw [hrun] at hrel; cases hrel
  | some F =>
    rw [hrun] at hrel
    cases hrel with
    | some h =>
      refine ⟨F, rfl, h.leaves, h.cacheInvariant, ?_, fun i => ?_⟩
      · rw [roots_of_isCache h.cache, h.leaves]
      · rw [prove_of_isCache h.cache, h.leaves]

/-- Two spends, their inverses and a re-add, over five leaves. -/
theorem history_cacheInvariant_five :
    ∃ F, (fromLeaves (fun a b : ℕ => 2 ^ a * 3 ^ b) [5, 6, 7, 8, 9]).run
        (fun a b => 2 ^ a * 3 ^ b)
        [.beginJournal, .delete 1, .delete 3, .undoOps [.deleted 1 6, .deleted 3 8], .add 4,
          .undoAdd] = some F ∧ F.leaves = [5, 6, 7, 8, 9] := by
  obtain ⟨F, hrun, hleaves, -⟩ := history_cacheInvariant (.inr ⟨[5, 6, 7, 8, 9], rfl⟩)
    (show ListModel.run (fromLeaves (fun a b : ℕ => 2 ^ a * 3 ^ b) [5, 6, 7, 8, 9]).leaves
      [.beginJournal, .delete 1, .delete 3, .undoOps [.deleted 1 6, .deleted 3 8], .add 4,
        .undoAdd] = some [5, 6, 7, 8, 9] from rfl)
  exact ⟨F, hrun, hleaves⟩

end Forest
end Accumulator
end Hazync
