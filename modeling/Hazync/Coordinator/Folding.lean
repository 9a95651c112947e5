import Hazync.Coordinator.Frontier
import Hazync.Coordinator.RangeId
import Hazync.Lib.AlignedNodes
import Hazync.Lib.KeyedTable
import Hazync.Lib.Runs
import Mathlib.Data.Finset.Dedup
import Mathlib.Tactic.Linarith

/-!
# Folding converges (`foldable`, `coordinator/server.py`)

The ranges that two folders may join are siblings of the aligned tree, so that whatever order they
are folded in, the results are nodes of one tree, and there are fewer of them than there are ranges
to begin with. An adjacent pair of any other kind is not offered.

Folders take pairs at any time and hand in the results in any order; in between the spine moves, and
ranges are proved.

## Why it ends

A pair is offered only where its parent is missing, and a result goes on record only where there is
no row of its id. So each fold is a new node of the tree (`once`), and it is the join of two nodes
that are there. A set of intervals in which every fold is the join of two members has fewer folds
than other members, as a forest has fewer inner nodes than leaves; that is
`Hazync.Lib.AlignedNodes`, and nothing about the order is used.

The table that a folder was shown may be stale when its result comes in. What keeps the argument is
that spans never leave the table: what was a join of two rows then is one now.
-/

namespace Hazync
namespace Coordinator

open KeyedTable AlignedNodes

/-- `_tree_node` -/
def treeNode (lo hi : ℕ) : Prop :=
  let w := hi + 1 - lo
  0 < w ∧ w &&& (w - 1) = 0 ∧ ((lo : ℤ) - 1) % w = 0

instance (lo hi : ℕ) : Decidable (treeNode lo hi) := inferInstanceAs (Decidable (_ ∧ _))

/-- A pair on offer, by the ids of its rows. -/
structure FoldPair where
  left : String
  right : String
  lo : ℕ
  hi : ℕ
  result : String
deriving DecidableEq

def VRow.span (r : VRow) : ℕ × ℕ := (r.lo, r.hi)

/-- The pairs of a row and its right-hand partners. -/
def pairsOf (floor : ℤ) (claimed : List String) (rows : List VRow) (r : VRow) : List FoldPair :=
  let w := r.hi + 1 - r.lo
  if r.lo ≤ floor then []
  else if ¬ treeNode r.lo r.hi then []
  -- a right-hand sibling: its left partner drives the fold
  else if ((r.lo : ℤ) - 1) / w % 2 ≠ 0 then []
  else (rows.filter fun s => s.lo = r.hi + 1).filterMap fun s =>
    let res := canonicalRangeId r.lo s.hi
    if s.hi + 1 - s.lo ≠ w then none
    else if (r.lo, s.hi) ∈ rows.map VRow.span then none
    else if res ∈ claimed then none
    else some ⟨r.id, s.id, r.lo, s.hi, res⟩

/-- Pairs are put out until there are as many as the limit. -/
def collect (limit : ℤ) : List FoldPair → List FoldPair → List FoldPair
  | out, [] => out
  | out, p :: ps =>
    let out := out ++ [p]
    if limit ≤ out.length then out else collect limit out ps

/-- `foldable`: `head` is the spine's, where its `hi` is a number; `rows` are ordered by `lo`. -/
def foldable (head : Option ℤ) (claimed : List String) (limit : ℤ) (rows : List VRow) :
    List FoldPair :=
  collect limit [] (rows.flatMap (pairsOf (head.getD 0) claimed rows))

/-- Two siblings are there, above the floor, and their parent is not. -/
structure Mergeable (rows : List VRow) (floor : ℤ) (k i : ℕ) : Prop where
  left : node k (2 * i) ∈ rows.map VRow.span
  right : node k (2 * i + 1) ∈ rows.map VRow.span
  missing : node (k + 1) i ∉ rows.map VRow.span
  /-- The spine has not absorbed the parent. -/
  above : floor < (node (k + 1) i).1

/-! ## Folders at work -/

/-- The table, and the pairs that folders have taken. -/
structure FoldBoard where
  vranges : List VRow
  taken : List FoldPair

inductive FoldEvent where
  | offer (head : Option ℤ) (claimed : List String) (limit : ℤ) (rows : List VRow) (p : FoldPair)
  | record (p : FoldPair) (v : VRow)
  | drop (p : FoldPair)
  | prove (v : VRow)

/-- A folder takes a pair that it is offered; a result goes on record, unless there is a row of its
id already; it is given up, or refused; and a range is proved. -/
def FoldStep (s : FoldBoard) : FoldEvent → FoldBoard → Prop
  | .offer head claimed limit rows p, s' =>
    rows.Perm s.vranges ∧ rows.Pairwise (fun a b => a.lo ≤ b.lo) ∧
      p ∈ foldable head claimed limit rows ∧ s' = { s with taken := p :: s.taken }
  | .record p v, s' =>
    p ∈ s.taken ∧ (∀ x ∈ s.vranges, x.id ≠ p.result) ∧ v.id = p.result ∧ v.span = (p.lo, p.hi) ∧
      s' = ⟨replace VRow.id v s.vranges, s.taken.erase p⟩
  | .drop p, s' => s' = { s with taken := s.taken.erase p }
  | .prove v, s' => (∀ x ∈ s.vranges, x.id ≠ v.id) ∧
      s' = { s with vranges := replace VRow.id v s.vranges }

/-- A run on a board that starts with some ranges. -/
abbrev FoldRun (start : List VRow) :=
  Runs.Run (fun s : FoldBoard => s.vranges = start ∧ s.taken = []) FoldStep

/-- The fold that goes on record. -/
def FoldEvent.fold : FoldEvent → Option (ℕ × ℕ)
  | .record _ v => some v.span
  | _ => none

/-- The range that goes on record otherwise. -/
def FoldEvent.proof : FoldEvent → Option (ℕ × ℕ)
  | .prove v => some v.span
  | _ => none

def folds (trace : List (FoldBoard × FoldEvent × FoldBoard)) : List (ℕ × ℕ) :=
  trace.filterMap fun t => t.2.1.fold

def proofs (trace : List (FoldBoard × FoldEvent × FoldBoard)) : List (ℕ × ℕ) :=
  trace.filterMap fun t => t.2.1.proof

/-! ## What is offered -/

variable {lo hi : ℕ} {floor : ℤ} {claimed : List String} {rows : List VRow} {r : VRow}
  {p : FoldPair} {head : Option ℤ} {limit : ℤ}

/-- The left-hand nodes of the tree: a span of a power of two that begins at a multiple of its
    double, counted from block 1. -/
theorem treeNode_left : treeNode lo hi ∧ ((lo : ℤ) - 1) / (hi + 1 - lo : ℕ) % 2 = 0 ↔
    ∃ k i, (lo, hi) = node k (2 * i) := by
  unfold treeNode
  dsimp only
  constructor
  · intro ⟨⟨hpos, hpow, haligned⟩, heven⟩
    obtain ⟨k, hk⟩ := (Nat.and_sub_one_eq_zero_iff_isPowerOfTwo hpos.ne').mp hpow
    obtain ⟨q, hq⟩ := Int.dvd_of_emod_eq_zero haligned
    have hwpos : (0 : ℤ) < (hi + 1 - lo : ℕ) := Int.natCast_pos.mpr hpos
    rw [hq, Int.mul_ediv_cancel_left _ hwpos.ne'] at heven
    obtain ⟨j, rfl⟩ := Int.dvd_of_emod_eq_zero heven
    -- an index below zero would put `lo` below zero
    have hj : 0 ≤ j := by
      by_contra hneg
      nlinarith
    obtain ⟨i, rfl⟩ := Int.eq_ofNat_of_zero_le hj
    refine ⟨k, i, eq_node ?_ hk⟩
    dsimp only
    rw [← hk]
    zify
    linarith
  · intro ⟨k, i, h⟩
    have hw : hi + 1 - lo = 2 ^ k := by
      rw [← width_node k (2 * i), ← h]
      rfl
    have hpos := Nat.two_pow_pos k
    have hlo : (lo : ℤ) - 1 = (2 ^ k : ℕ) * (2 * i) := by
      have hfirst : lo = 2 * i * 2 ^ k + 1 := congrArg Prod.fst h
      rw [hfirst]
      push_cast
      ring
    rw [hw, hlo]
    refine ⟨⟨hpos, ?_, Int.mul_emod_right _ _⟩, ?_⟩
    · exact (Nat.and_sub_one_eq_zero_iff_isPowerOfTwo hpos.ne').mpr ⟨k, rfl⟩
    · rw [Int.mul_ediv_cancel_left _ (Int.natCast_ne_zero.mpr hpos.ne')]
      exact Int.mul_emod_right 2 _

/-- The sibling of a left-hand node starts after it and is as wide. -/
theorem right_of_left {k i : ℕ} {l s : VRow} (hl : l.span = node k (2 * i)) :
    s.lo = l.hi + 1 ∧ s.hi + 1 - s.lo = l.hi + 1 - l.lo ↔ s.span = node k (2 * i + 1) := by
  have hw : l.hi + 1 - l.lo = 2 ^ k := by
    rw [← width_node k (2 * i), ← hl]
    rfl
  have hend : l.hi = (2 * i + 1) * 2 ^ k := congrArg Prod.snd hl
  rw [hw, hend]
  constructor
  · intro ⟨hlo, hwidth⟩
    exact eq_node hlo hwidth
  · intro hs
    refine ⟨congrArg Prod.fst hs, ?_⟩
    rw [← width_node k (2 * i + 1), ← hs]
    rfl

/-- The parent of two siblings. -/
theorem parent_span {k i : ℕ} {l s : VRow} (hl : l.span = node k (2 * i))
    (hs : s.span = node k (2 * i + 1)) : (l.lo, s.hi) = node (k + 1) i := by
  have hlo : l.lo = 2 * i * 2 ^ k + 1 := congrArg Prod.fst hl
  have hhi : s.hi = (2 * i + 1 + 1) * 2 ^ k := congrArg Prod.snd hs
  rw [hlo, hhi]
  unfold node
  congr 1
  · ring
  · ring

/-- What is put out: two siblings above the floor whose parent is missing and not claimed. -/
theorem mem_pairs : p ∈ rows.flatMap (pairsOf floor claimed rows) ↔
    ∃ k i, Mergeable rows floor k i ∧ ∃ l ∈ rows, ∃ s ∈ rows, l.span = node k (2 * i) ∧
      s.span = node k (2 * i + 1) ∧ canonicalRangeId l.lo s.hi ∉ claimed ∧
      p = ⟨l.id, s.id, l.lo, s.hi, canonicalRangeId l.lo s.hi⟩ := by
  rw [List.mem_flatMap]
  constructor
  · intro ⟨l, hl, hp⟩
    -- the guards in the order of the source: floor, tree node, left child, neighbour, width,
    -- missing, free
    unfold pairsOf at hp
    dsimp only at hp
    split at hp
    · cases hp
    rename_i hfloor
    split at hp
    · cases hp
    rename_i htree
    split at hp
    · cases hp
    rename_i heven
    obtain ⟨k, i, hleft⟩ := treeNode_left.mp ⟨not_not.mp htree, not_not.mp heven⟩
    obtain ⟨s, hs, hp⟩ := List.mem_filterMap.mp hp
    obtain ⟨hs, hnext⟩ := List.mem_filter.mp hs
    split at hp
    · cases hp
    rename_i hwidth
    split at hp
    · cases hp
    rename_i hmissing
    split at hp
    · cases hp
    rename_i hfree
    have hright := (right_of_left hleft).mp ⟨of_decide_eq_true hnext, not_not.mp hwidth⟩
    have hparent := parent_span hleft hright
    refine ⟨k, i, ⟨?_, ?_, ?_, ?_⟩, l, hl, s, hs, hleft, hright, hfree, (Option.some.inj hp).symm⟩
    · rw [← hleft]
      exact List.mem_map_of_mem hl
    · rw [← hright]
      exact List.mem_map_of_mem hs
    · rwa [← hparent]
    · rw [← hparent]
      exact not_le.mp hfloor
  -- the other way every guard passes
  · intro ⟨k, i, hmerge, l, hl, s, hs, hleft, hright, hfree, hp⟩
    refine ⟨l, hl, ?_⟩
    have hparent := parent_span hleft hright
    obtain ⟨htree, heven⟩ := treeNode_left.mpr ⟨k, i, hleft⟩
    obtain ⟨hnext, hwidth⟩ := (right_of_left hleft).mpr hright
    have hfloor : ¬ (l.lo : ℤ) ≤ floor := by
      have habove := hmerge.above
      rw [← hparent] at habove
      exact not_le.mpr habove
    have hmissing : (l.lo, s.hi) ∉ rows.map VRow.span := by
      rw [hparent]
      exact hmerge.missing
    unfold pairsOf
    dsimp only
    rw [if_neg hfloor, if_neg (not_not.mpr htree), if_neg (not_not.mpr heven)]
    refine List.mem_filterMap.mpr ⟨s, List.mem_filter.mpr ⟨hs, decide_eq_true hnext⟩, ?_⟩
    rw [if_neg (not_not.mpr hwidth), if_neg hmissing, if_neg hfree, hp]

theorem mem_collect {out ps : List FoldPair} (h : p ∈ collect limit out ps) : p ∈ out ∨ p ∈ ps := by
  induction ps generalizing out with
  | nil => exact .inl h
  | cons q ps ih =>
    unfold collect at h
    dsimp only at h
    have hout : p ∈ out ++ [q] ∨ p ∈ ps := by
      split at h
      · exact .inl h
      · exact ih h
    rcases hout with hout | hps
    · rcases List.mem_append.mp hout with hout | hq
      · exact .inl hout
      · rw [List.mem_singleton.mp hq]
        exact .inr List.mem_cons_self
    · exact .inr (List.mem_cons_of_mem q hps)

theorem collect_ne_nil {out ps : List FoldPair} (h : out ≠ []) : collect limit out ps ≠ [] := by
  induction ps generalizing out with
  | nil => exact h
  | cons q ps ih =>
    unfold collect
    dsimp only
    split
    · simp
    · exact ih (by simp)

theorem mem_foldable (h : p ∈ foldable head claimed limit rows) :
    p ∈ rows.flatMap (pairsOf (head.getD 0) claimed rows) :=
  (mem_collect h).resolve_left List.not_mem_nil

/-- Whatever the limit, the list is empty only where there is no pair. -/
theorem foldable_eq_nil : foldable head claimed limit rows = [] ↔
    rows.flatMap (pairsOf (head.getD 0) claimed rows) = [] := by
  unfold foldable
  cases hpairs : rows.flatMap (pairsOf (head.getD 0) claimed rows) with
  | nil => exact ⟨fun _ => rfl, fun _ => rfl⟩
  | cons q ps =>
    constructor
    · intro h
      unfold collect at h
      dsimp only at h
      split at h
      · cases h
      · exact absurd h (collect_ne_nil (by simp))
    · intro h
      cases h

/-- With no claims, the list is empty just where no two siblings lack their parent. So a folder that
    is shown an empty list has nothing to do, whatever the limit. -/
theorem foldable_nil_iff : foldable head [] limit rows = [] ↔
    ∀ k i, ¬ Mergeable rows (head.getD 0) k i := by
  rw [foldable_eq_nil]
  constructor
  · intro hnil k i hmerge
    obtain ⟨l, hl, hleft⟩ := List.mem_map.mp hmerge.left
    obtain ⟨s, hs, hright⟩ := List.mem_map.mp hmerge.right
    have hpair := mem_pairs.mpr ⟨k, i, hmerge, l, hl, s, hs, hleft, hright, List.not_mem_nil, rfl⟩
    rw [hnil] at hpair
    cases hpair
  · intro hnone
    apply List.eq_nil_iff_forall_not_mem.mpr
    intro p hp
    obtain ⟨k, i, hmerge, -⟩ := mem_pairs.mp hp
    exact hnone k i hmerge

theorem Mergeable.perm {rows' : List VRow} {k i : ℕ} (hperm : rows.Perm rows')
    (h : Mergeable rows floor k i) : Mergeable rows' floor k i := by
  have hspans : ∀ x, x ∈ rows.map VRow.span ↔ x ∈ rows'.map VRow.span := fun x =>
    (hperm.map VRow.span).mem_iff
  exact ⟨(hspans _).mp h.left, (hspans _).mp h.right, fun hin => h.missing ((hspans _).mpr hin),
    h.above⟩

/-- What a pair on offer is. -/
structure Offered (rows : List VRow) (floor : ℤ) (p : FoldPair) : Prop where
  merge : ∃ k i, Mergeable rows floor k i ∧ (p.lo, p.hi) = node (k + 1) i ∧
    ∃ l ∈ rows, ∃ s ∈ rows, p.left = l.id ∧ p.right = s.id ∧ l.span = node k (2 * i) ∧
      s.span = node k (2 * i + 1)
  named : p.result = canonicalRangeId p.lo p.hi

theorem offered_of_mem {rows' : List VRow} (hperm : rows.Perm rows')
    (h : p ∈ foldable head claimed limit rows) : Offered rows' (head.getD 0) p := by
  obtain ⟨k, i, hmerge, l, hl, s, hs, hleft, hright, -, rfl⟩ := mem_pairs.mp (mem_foldable h)
  exact ⟨⟨k, i, hmerge.perm hperm, parent_span hleft hright, l, hperm.mem_iff.mp hl, s,
    hperm.mem_iff.mp hs, rfl, rfl, hleft, hright⟩, rfl⟩

/-! ## What a run keeps -/

/-- The ranges of a table. -/
def spans (rows : List VRow) : Finset (ℕ × ℕ) := (rows.map VRow.span).toFinset

theorem mem_spans {x : ℕ × ℕ} : x ∈ spans rows ↔ x ∈ rows.map VRow.span := List.mem_toFinset

theorem Offered.joined {rows : List VRow} {floor : ℤ} (h : Offered rows floor p) :
    Joined (spans rows) (p.lo, p.hi) := by
  obtain ⟨k, i, hmerge, hspan, -⟩ := h.merge
  exact ⟨k, i, hspan, mem_spans.mpr hmerge.left, mem_spans.mpr hmerge.right⟩

variable {start : List VRow} {trace : List (FoldBoard × FoldEvent × FoldBoard)} {s s' : FoldBoard}
  {e : FoldEvent} {v : VRow}

theorem replace_of_fresh (h : ∀ x ∈ rows, x.id ≠ v.id) : replace VRow.id v rows = rows ++ [v] := by
  unfold replace
  congr 1
  apply List.filter_eq_self.mpr
  intro x hx
  exact decide_eq_true (h x hx)

/-- What is in the table, and what folders have taken and handed in. -/
structure FoldInv (start : List VRow) (trace : List (FoldBoard × FoldEvent × FoldBoard))
    (s : FoldBoard) : Prop where
  /-- The table has what was there, what was proven since, and the folds. -/
  known : ∀ x, x ∈ spans s.vranges ↔ x ∈ start.map VRow.span ++ proofs trace ∨ x ∈ folds trace
  /-- What a folder has taken on is a join of two ranges that are there, under the id of the
      result. -/
  taken : ∀ p ∈ s.taken, Joined (spans s.vranges) (p.lo, p.hi) ∧
    p.result = canonicalRangeId p.lo p.hi
  /-- Each fold is such a join. -/
  folded : ∀ x ∈ folds trace, Joined (spans s.vranges) x
  /-- Its row is under its id, so that it is not handed out again. -/
  named : ∀ x ∈ folds trace, ∃ v ∈ s.vranges, v.id = canonicalRangeId x.1 x.2
  /-- No fold is made twice. -/
  once : (folds trace).Nodup

theorem folds_snoc : folds (trace ++ [(s, e, s')]) = folds trace ++ e.fold.toList := by
  unfold folds
  rw [List.filterMap_append]
  cases h : e.fold <;> simp [h]

theorem proofs_snoc : proofs (trace ++ [(s, e, s')]) = proofs trace ++ e.proof.toList := by
  unfold proofs
  rw [List.filterMap_append]
  cases h : e.proof <;> simp [h]

/-- A step that puts nothing on record. -/
theorem FoldInv.quiet (hs : FoldInv start trace s) (hrows : s'.vranges = s.vranges)
    (hfold : e.fold = none) (hproof : e.proof = none)
    (htaken : ∀ p ∈ s'.taken, Joined (spans s.vranges) (p.lo, p.hi) ∧
      p.result = canonicalRangeId p.lo p.hi) : FoldInv start (trace ++ [(s, e, s')]) s' := by
  have hfolds : folds (trace ++ [(s, e, s')]) = folds trace := by simp [folds_snoc, hfold]
  have hproofs : proofs (trace ++ [(s, e, s')]) = proofs trace := by simp [proofs_snoc, hproof]
  refine ⟨?_, ?_, ?_, ?_, ?_⟩
  · rw [hrows, hfolds, hproofs]
    exact hs.known
  · rw [hrows]
    exact htaken
  · rw [hrows, hfolds]
    exact hs.folded
  · rw [hrows, hfolds]
    exact hs.named
  · rw [hfolds]
    exact hs.once

theorem mem_spans_concat {x : ℕ × ℕ} : x ∈ spans (rows ++ [v]) ↔ x ∈ spans rows ∨ x = v.span := by
  rw [mem_spans, mem_spans, List.map_append, List.mem_append, List.map_singleton,
    List.mem_singleton]

/-- A step that puts a row on record: what was known before is known after it. -/
theorem FoldInv.kept (hs : FoldInv start trace s) :
    (∀ p ∈ s.taken, Joined (spans (s.vranges ++ [v])) (p.lo, p.hi) ∧
      p.result = canonicalRangeId p.lo p.hi) ∧
    (∀ x ∈ folds trace, Joined (spans (s.vranges ++ [v])) x) ∧
    ∀ x ∈ folds trace, ∃ u ∈ s.vranges ++ [v], u.id = canonicalRangeId x.1 x.2 := by
  have hgrow : spans s.vranges ⊆ spans (s.vranges ++ [v]) := fun x hx =>
    mem_spans_concat.mpr (.inl hx)
  refine ⟨?_, ?_, ?_⟩
  · intro p hp
    exact ⟨(hs.taken p hp).1.mono hgrow, (hs.taken p hp).2⟩
  · intro x hx
    exact (hs.folded x hx).mono hgrow
  · intro x hx
    obtain ⟨u, hu, hid⟩ := hs.named x hx
    exact ⟨u, List.mem_append_left _ hu, hid⟩

/-- One step. A result that has a row already is dropped, so a fold on record is a new span; and a
    range that is proved is no fold. -/
theorem FoldInv.step (hs : FoldInv start trace s) (h : FoldStep s e s') :
    FoldInv start (trace ++ [(s, e, s')]) s' := by
  cases e with
  | offer head claimed limit rows p =>
    obtain ⟨hperm, -, hp, rfl⟩ := h
    refine hs.quiet ?_ rfl rfl ?_
    · rfl
    intro q hq
    rcases List.mem_cons.mp hq with rfl | hq
    · have hoffered := offered_of_mem hperm hp
      exact ⟨hoffered.joined, hoffered.named⟩
    · exact hs.taken q hq
  | drop p =>
    obtain rfl := h
    refine hs.quiet ?_ rfl rfl ?_
    · rfl
    intro q hq
    exact hs.taken q (List.mem_of_mem_erase hq)
  -- the row is new, so it is added; what was known by folds is untouched
  | prove v =>
    obtain ⟨hfresh, rfl⟩ := h
    obtain ⟨htaken, hfolded, hnamed⟩ := hs.kept (v := v)
    rw [replace_of_fresh hfresh]
    refine ⟨?_, htaken, ?_, ?_, ?_⟩
    · intro x
      rw [mem_spans_concat, hs.known, folds_snoc, proofs_snoc]
      simp only [FoldEvent.fold, FoldEvent.proof, Option.toList, List.append_nil, List.mem_append,
        List.mem_singleton, ← or_assoc]
      exact or_right_comm
    · rw [folds_snoc]
      simpa [FoldEvent.fold] using hfolded
    · rw [folds_snoc]
      simpa [FoldEvent.fold] using hnamed
    · rw [folds_snoc]
      simpa [FoldEvent.fold] using hs.once
  -- the row of a pair taken: its halves were known when it was offered, and still are
  | record p v =>
    obtain ⟨hp, hfresh, hid, hspan, rfl⟩ := h
    obtain ⟨hjoined, hname⟩ := hs.taken p hp
    rw [← hid] at hfresh
    obtain ⟨htaken, hfolded, hnamed⟩ := hs.kept (v := v)
    rw [replace_of_fresh hfresh]
    have hsnoc : folds (trace ++ [(s, .record p v, ⟨s.vranges ++ [v], s.taken.erase p⟩)]) =
        folds trace ++ [v.span] := folds_snoc
    rw [← hspan] at hjoined
    have hgrow : spans s.vranges ⊆ spans (s.vranges ++ [v]) := fun x hx =>
      mem_spans_concat.mpr (.inl hx)
    have hvname : v.id = canonicalRangeId v.span.1 v.span.2 := by
      rw [hid, hname, hspan]
    refine ⟨?_, ?_, ?_, ?_, ?_⟩
    · intro x
      rw [mem_spans_concat, hs.known, hsnoc, proofs_snoc]
      simp only [FoldEvent.proof, Option.toList, List.append_nil, List.mem_append,
        List.mem_singleton]
      exact or_assoc
    · intro q hq
      exact htaken q (List.mem_of_mem_erase hq)
    · intro x hx
      rw [hsnoc] at hx
      rcases List.mem_append.mp hx with hx | hx
      · exact hfolded x hx
      · rw [List.mem_singleton.mp hx]
        exact hjoined.mono hgrow
    · intro x hx
      rw [hsnoc] at hx
      rcases List.mem_append.mp hx with hx | hx
      · exact hnamed x hx
      · rw [List.mem_singleton.mp hx]
        exact ⟨v, by simp, hvname⟩
    · -- a fold of this range would have left a row of its id
      rw [hsnoc, List.nodup_append]
      refine ⟨hs.once, List.nodup_singleton _, ?_⟩
      intro x hx y hy heq
      rw [List.mem_singleton.mp hy] at heq
      obtain ⟨u, hu, huid⟩ := hs.named x hx
      rw [heq, ← hvname] at huid
      exact hfresh u hu huid

theorem FoldInv.of_run (h : FoldRun start trace s) : FoldInv start trace s := by
  induction h with
  | nil hinit =>
    obtain ⟨hrows, htaken⟩ := hinit
    refine ⟨?_, ?_, ?_, ?_, List.nodup_nil⟩
    · intro x
      rw [hrows, mem_spans]
      simp [proofs, folds]
    · intro p hp
      rw [htaken] at hp
      cases hp
    · intro x hx
      cases hx
    · intro x hx
      cases hx
  | snoc _ hstep ih => exact ih.step hstep

/-- There are fewer folds than there are ranges that were not folded. -/
theorem FoldInv.few (hs : FoldInv start trace s) :
    (folds trace).length ≤ (start.map VRow.span ++ proofs trace).toFinset.card - 1 := by
  rw [← List.toFinset_card_of_nodup hs.once]
  rcases (folds trace).toFinset.eq_empty_or_nonempty with hnone | hsome
  · rw [hnone]
    exact Nat.zero_le _
  · apply Nat.le_sub_one_of_lt
    apply card_lt_of_joined hsome
    intro x hx
    apply (hs.folded x (List.mem_toFinset.mp hx)).mono
    intro y hy
    rw [Finset.mem_union, List.mem_toFinset, List.mem_toFinset]
    exact (hs.known y).mp hy

/-- Every pair that is offered is one to fold, no fold goes on record twice, there are fewer folds
than other ranges, and with no claims the list is empty just where there is no pair left. -/
structure FoldsConverge (start : List VRow) (trace : List (FoldBoard × FoldEvent × FoldBoard))
    (s : FoldBoard) : Prop where
  /-- Whatever the list of claims and the limit. -/
  offered : ∀ before head claimed limit rows p after,
    (before, FoldEvent.offer head claimed limit rows p, after) ∈ trace →
      Offered before.vranges (head.getD 0) p
  /-- However many folders run at once. -/
  foldedOnce : (folds trace).Nodup
  /-- A tree over `n` leaves has fewer than `n` inner nodes. -/
  few : (folds trace).length ≤ (start.map VRow.span ++ proofs trace).toFinset.card - 1
  /-- The list does not go empty while there is something to fold. -/
  finished : ∀ head limit rows, rows.Perm s.vranges → (foldable head [] limit rows = [] ↔
    ∀ k i, ¬ Mergeable s.vranges (head.getD 0) k i)

/-- **Folding converges.** Over every run, with any number of folders, any order of their results
    and any failures: only siblings are offered, none is folded twice, the folds are fewer than the
    other ranges, and the list goes empty only when there is nothing left to fold. -/
theorem folding_converges (h : FoldRun start trace s) : FoldsConverge start trace s := by
  have hinv := FoldInv.of_run h
  refine ⟨?_, hinv.once, hinv.few, ?_⟩
  · intro before head claimed limit rows p after hmem
    obtain ⟨pre, post, heq⟩ := List.append_of_mem hmem
    obtain ⟨-, hperm, -, hp, -⟩ := h.split heq
    exact offered_of_mem hperm hp
  · intro head limit rows hperm
    rw [foldable_nil_iff]
    constructor
    · intro hnone k i hmerge
      exact hnone k i (hmerge.perm hperm.symm)
    · intro hnone k i hmerge
      exact hnone k i (hmerge.perm hperm)

/-! ## Two blocks -/

def foldRow (lo hi : ℕ) : VRow where
  lo := lo
  hi := hi
  inTip := sampleDigest 0
  outTip := sampleDigest 0
  inBhash := none
  outBhash := none
  rangeWork := 0
  outLeaves := none
  id := canonicalRangeId lo hi
  pubkey := ""
  handle := ""
  ts := 0

def firstPair : FoldPair where
  left := canonicalRangeId 1 1
  right := canonicalRangeId 2 2
  lo := 1
  hi := 2
  result := canonicalRangeId 1 2

/-- Blocks 1 and 2 are folded, and there is nothing more to fold. -/
theorem folding_converges_two : ∃ trace s, FoldRun [foldRow 1 1, foldRow 2 2] trace s ∧
    folds trace = [(1, 2)] ∧ FoldsConverge [foldRow 1 1, foldRow 2 2] trace s := by
  let start : FoldBoard := ⟨[foldRow 1 1, foldRow 2 2], []⟩
  let taken : FoldBoard := { start with taken := [firstPair] }
  let done : FoldBoard := ⟨replace VRow.id (foldRow 1 2) start.vranges, []⟩
  have hbegin : FoldRun [foldRow 1 1, foldRow 2 2] [] start := .nil ⟨rfl, rfl⟩
  have hoffer : FoldStep start (.offer none [] 32 start.vranges firstPair) taken := by
    refine ⟨List.Perm.refl _, ?_, ?_, rfl⟩
    · simp [start, foldRow]
    · have hpairs : foldable none [] 32 start.vranges = [firstPair] := rfl
      rw [hpairs]
      exact List.mem_singleton_self _
  have hrecord : FoldStep taken (.record firstPair (foldRow 1 2)) done := by
    refine ⟨List.mem_singleton_self _, ?_, rfl, rfl, rfl⟩
    intro x hx
    have hleft : canonicalRangeId 1 1 ≠ canonicalRangeId 1 2 := fun h =>
      absurd (canonicalRangeId_inj (le_refl 1) (Nat.le_succ 1) h).2 (by decide)
    have hright : canonicalRangeId 2 2 ≠ canonicalRangeId 1 2 := fun h =>
      absurd (canonicalRangeId_inj (le_refl 2) (Nat.le_succ 1) h).1 (by decide)
    rcases List.mem_cons.mp hx with rfl | hx
    · exact hleft
    · rw [List.mem_singleton.mp hx]
      exact hright
  have hrun := (hbegin.snoc hoffer).snoc hrecord
  exact ⟨_, _, hrun, rfl, folding_converges hrun⟩

end Coordinator
end Hazync
