import Mathlib.Data.Finset.Card
import Mathlib.Data.Finset.Union
import Mathlib.Order.Interval.Finset.Nat

/-!
# Counting what intervals cover

Intervals that come in the order of their starts can be counted in one pass: the last piece is kept
open, and an interval that meets or overlaps it widens it. `Last` is what the pass knows of the open
piece, and its two lemmas say what the next interval adds.

## One open piece

Intervals that overlap must not be counted twice. Sorted by their starts, they fall into pieces: an
interval either meets what has been covered so far at its end, and then belongs to the last piece,
or begins beyond it, and then nothing that comes later can touch the earlier pieces any more. So one
pass suffices, with the sum of the closed pieces and the bounds of the open one.

The invariant is `Merging`. It does not say what the closed pieces are, only how many numbers they
have together with the open one, and that the open one is the last. Its step has three cases, those
of the source: the first interval, one that meets the open piece, and one that does not. Neighbours
count as meeting, so that `1..2` and `3..4` make one piece; for the count this makes no difference.
-/

namespace IntervalMerge

/-- The numbers in some interval. -/
def cover (l : List (ℕ × ℕ)) : Finset ℕ := l.toFinset.biUnion fun p => Finset.Icc p.1 p.2

variable {l : List (ℕ × ℕ)} {p cur : ℕ × ℕ} {x lo hi : ℕ} {c : Finset ℕ}

/-- A number is covered where some interval has it. -/
theorem mem_cover : x ∈ cover l ↔ ∃ p ∈ l, p.1 ≤ x ∧ x ≤ p.2 := by
  unfold cover
  simp

/-- One interval more. -/
theorem cover_concat (l : List (ℕ × ℕ)) (p : ℕ × ℕ) :
    cover (l ++ [p]) = cover l ∪ Finset.Icc p.1 p.2 := by
  ext x
  rw [Finset.mem_union, mem_cover, mem_cover, Finset.mem_Icc]
  simp [or_and_right, exists_or]

/-- Only which intervals there are matters. -/
theorem cover_congr {l' : List (ℕ × ℕ)} (h : ∀ p, p ∈ l ↔ p ∈ l') : cover l = cover l' := by
  ext x
  rw [mem_cover, mem_cover]
  exact exists_congr fun p => and_congr_left fun _ => h p

/-- `cur` is the last piece of the set: it is all there, and nothing is beyond it. -/
structure Last (c : Finset ℕ) (cur : ℕ × ℕ) : Prop where
  /-- The whole piece belongs to the set. -/
  within : Finset.Icc cur.1 cur.2 ⊆ c
  /-- Nothing is beyond it, so that what comes next joins it or begins a new piece. -/
  beyond : ∀ x ∈ c, x ≤ cur.2
  ordered : cur.1 ≤ cur.2

/-- An interval that starts beyond the last piece. -/
theorem Last.apart (h : Last c cur) (hnew : cur.2 < lo) (hle : lo ≤ hi) :
    Last (c ∪ Finset.Icc lo hi) (lo, hi) ∧
      (c ∪ Finset.Icc lo hi).card = c.card + (hi + 1 - lo) := by
  refine ⟨⟨Finset.subset_union_right, ?_, hle⟩, ?_⟩
  · intro x hx
    rcases Finset.mem_union.mp hx with hx | hx
    · exact ((h.beyond x hx).trans hnew.le).trans hle
    · exact (Finset.mem_Icc.mp hx).2
  · rw [Finset.card_union_of_disjoint, Nat.card_Icc]
    rw [Finset.disjoint_left]
    intro x hx hx'
    have hlast := h.beyond x hx
    have hfirst := (Finset.mem_Icc.mp hx').1
    omega

/-- An interval that meets the last piece, or overlaps it. -/
theorem Last.join (h : Last c cur) (hlo : cur.1 ≤ lo) (hmeet : lo ≤ cur.2 + 1) :
    Last (c ∪ Finset.Icc lo hi) (cur.1, max cur.2 hi) ∧
      (c ∪ Finset.Icc lo hi).card + (cur.2 + 1 - cur.1) =
        c.card + (max cur.2 hi + 1 - cur.1) := by
  -- what is new lies beyond the last piece
  have hunion : c ∪ Finset.Icc lo hi = c ∪ Finset.Icc (cur.2 + 1) hi := by
    ext x
    rw [Finset.mem_union, Finset.mem_union, Finset.mem_Icc, Finset.mem_Icc]
    constructor
    · rintro (hx | ⟨hfirst, hlast⟩)
      · exact .inl hx
      · by_cases hnew : cur.2 + 1 ≤ x
        · exact .inr ⟨hnew, hlast⟩
        · exact .inl (h.within (Finset.mem_Icc.mpr ⟨hlo.trans hfirst, by omega⟩))
    · rintro (hx | ⟨hfirst, hlast⟩)
      · exact .inl hx
      · exact .inr ⟨hmeet.trans hfirst, hlast⟩
  refine ⟨⟨?_, ?_, h.ordered.trans (le_max_left _ _)⟩, ?_⟩
  · intro x hx
    rw [Finset.mem_Icc, le_max_iff] at hx
    rw [hunion, Finset.mem_union, Finset.mem_Icc]
    by_cases hnew : cur.2 + 1 ≤ x
    · exact .inr ⟨hnew, by omega⟩
    · exact .inl (h.within (Finset.mem_Icc.mpr ⟨hx.1, by omega⟩))
  · intro x hx
    rw [le_max_iff]
    rcases Finset.mem_union.mp hx with hx | hx
    · exact .inl (h.beyond x hx)
    · exact .inr (Finset.mem_Icc.mp hx).2
  · have hdisjoint : Disjoint c (Finset.Icc (cur.2 + 1) hi) := by
      rw [Finset.disjoint_left]
      intro x hx hx'
      have hlast := h.beyond x hx
      have hfirst := (Finset.mem_Icc.mp hx').1
      omega
    have hordered := h.ordered
    rw [hunion, Finset.card_union_of_disjoint hdisjoint, Nat.card_Icc]
    omega

/-- The first interval. -/
theorem Last.first (hle : p.1 ≤ p.2) : Last (Finset.Icc p.1 p.2) p :=
  ⟨Finset.Subset.refl _, fun _ hx => (Finset.mem_Icc.mp hx).2, hle⟩

/-! ## The pass -/

/-- How much the open piece has. -/
def openCount (cur : Option (ℕ × ℕ)) : ℕ := cur.elim 0 fun p => p.2 + 1 - p.1

/-- The pieces that are closed are counted, and the last one is open. -/
def mergeStep (st : ℕ × Option (ℕ × ℕ)) (p : ℕ × ℕ) : ℕ × Option (ℕ × ℕ) :=
  match st.2 with
  | none => (st.1, some p)
  | some cur =>
    if cur.2 + 1 < p.1 then (st.1 + (cur.2 + 1 - cur.1), some p)
    else (st.1, some (cur.1, max cur.2 p.2))

/-- The closed pieces, and the open one at the end. -/
def mergeCount (l : List (ℕ × ℕ)) : ℕ :=
  let st := l.foldl mergeStep (0, none)
  st.1 + openCount st.2

/-- What the pass knows after the intervals of `l`. -/
structure Merging (l : List (ℕ × ℕ)) (st : ℕ × Option (ℕ × ℕ)) : Prop where
  /-- The closed pieces, with the open one, are as many as the intervals cover. -/
  count : st.1 + openCount st.2 = (cover l).card
  /-- The open piece is the last, and begins where one of the intervals does. -/
  last : ∀ cur ∈ st.2, Last (cover l) cur ∧ ∃ q ∈ l, q.1 = cur.1
  /-- There is an open piece as soon as there was an interval. -/
  empty : st.2 = none → l = []

/-- Before the first interval. -/
theorem Merging.nil : Merging [] (0, none) where
  count := rfl
  last := by simp
  empty _ := rfl

variable {st : ℕ × Option (ℕ × ℕ)}

/-- One interval more, that starts no earlier than those before. -/
theorem Merging.step (h : Merging l st) (hbefore : ∀ q ∈ l, q.1 ≤ p.1) (hp : p.1 ≤ p.2) :
    Merging (l ++ [p]) (mergeStep st p) := by
  obtain ⟨total, cur⟩ := st
  have hmem : p ∈ l ++ [p] := by simp
  unfold mergeStep
  cases cur with
  | none =>
    obtain rfl := h.empty rfl
    have hcover : cover [p] = Finset.Icc p.1 p.2 := by simp [cover]
    have hcount : total = 0 := h.count
    refine ⟨?_, ?_, ?_⟩
    · rw [List.nil_append, hcover, Nat.card_Icc, hcount]
      exact Nat.zero_add _
    · intro cur hcur
      obtain rfl := Option.some.inj hcur
      rw [List.nil_append, hcover]
      exact ⟨Last.first hp, p, hmem, rfl⟩
    · intro hnone
      cases hnone
  | some cur =>
    obtain ⟨hlast, q, hq, hstart⟩ := h.last cur rfl
    have hcount : total + (cur.2 + 1 - cur.1) = (cover l).card := h.count
    dsimp only
    split
    -- apart from the interval in hand: that one is closed
    · rename_i hnew
      obtain ⟨hlast', hcard⟩ := hlast.apart (Nat.lt_of_succ_lt hnew) hp
      rw [← cover_concat] at hlast' hcard
      refine ⟨?_, ?_, fun hnone => ?_⟩
      · rw [hcard, ← hcount]
        rfl
      · intro cur' hcur
        obtain rfl := Option.some.inj hcur
        exact ⟨hlast', p, hmem, rfl⟩
      · cases hnone
    -- it meets the interval in hand, which grows
    · rename_i hmeet
      have hlo : cur.1 ≤ p.1 := by
        rw [← hstart]
        exact hbefore q hq
      obtain ⟨hlast', hcard⟩ := hlast.join hlo (Nat.not_lt.mp hmeet)
      rw [← cover_concat] at hlast' hcard
      refine ⟨?_, ?_, fun hnone => ?_⟩
      · have hordered := hlast.ordered
        change total + (max cur.2 p.2 + 1 - cur.1) = _
        omega
      · intro cur' hcur
        obtain rfl := Option.some.inj hcur
        exact ⟨hlast', q, List.mem_append_left _ hq, hstart⟩
      · cases hnone

/-- In the order of their starts, the pass counts what the intervals cover. -/
theorem mergeCount_eq (hsorted : l.Pairwise fun a b => a.1 ≤ b.1) (hle : ∀ p ∈ l, p.1 ≤ p.2) :
    mergeCount l = (cover l).card := by
  have hinv : Merging l (l.foldl mergeStep (0, none)) := by
    induction l using List.reverseRecOn with
    | nil => exact Merging.nil
    | append_singleton l p ih =>
      obtain ⟨hpair, -, hbefore⟩ := List.pairwise_append.mp hsorted
      rw [List.foldl_append]
      apply (ih hpair fun q hq => hle q (List.mem_append_left _ hq)).step
      · intro q hq
        exact hbefore q hq p (List.mem_singleton_self p)
      · exact hle p (by simp)
  exact hinv.count

end IntervalMerge
