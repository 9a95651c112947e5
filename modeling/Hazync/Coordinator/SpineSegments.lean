import Hazync.Coordinator.RangeId
import Mathlib.Algebra.Order.Ring.Int
import Mathlib.Data.List.Chain

/-!
# Who took the spine where (`spine_segments`, `spine_absorption`, `coordinator/server.py`)

Every submission of a spine leaves a row `spine:1-N`, and the spine only moves forward. The rows
that raise the head are the advances: a block belongs to the first that reached it, and advances of
one key that follow on one another are one segment.

Two walks read the same log, each with its own state. A row that does not raise the head, or has no
number, is passed over by both.

## Two questions to one log

The page asks who folded which stretch of the spine, and the block page asks by which submission a
block came into it. Both read the rows `spine:1-N` in the order in which they came. The first walk
joins advances of one key into segments, with the name of the last; the second stops at the first
row that reaches the block. What makes the two agree is stated once, of the log itself: a row is an
advance if it goes above all that came before it (`Advance`). The advances cut the blocks up to the
head into intervals, so every block has exactly one (`Advance.unique`), and a segment is a run of
advances of one key.

The log is not clean. A row may name a height that has been passed, its id may have no number in it,
its key may be missing. Nothing is assumed of the rows: `spine_partition` is about every list of
them.
-/

namespace Hazync
namespace Coordinator

/-- What the walks read of a row of `submissions`. -/
structure SpineRow where
  rangeId : String
  pubkey : Option String
  handle : Option String
deriving DecidableEq

/-- `int`, of a string that may have a minus sign -/
def pyInt (s : List Char) : Option ℤ :=
  let stripped := (s.dropWhile isIntSpace).rdropWhile isIntSpace
  match stripped with
  | '-' :: c :: cs => ((digitValue c).bind fun d => intDigits d cs).map fun n => -(n : ℤ)
  | _ => (int s).map fun n => (n : ℤ)

/-- `int(range_id.split("-", 1)[1])` -/
def SpineRow.hi? (r : SpineRow) : Option ℤ :=
  match r.rangeId.toList.dropWhile (· ≠ '-') with
  | [] => none
  | _ :: s => pyInt s

/-- What the block page says of a block: the interval of the advance that absorbed it, its width,
    who it was, and whether more than one block was folded at once. -/
structure Absorption where
  lo : ℤ
  hi : ℤ
  width : ℤ
  handle : Option String
  foldedRange : Bool
deriving DecidableEq

/-- The loop of `spine_absorption`, with the head so far. -/
def absorptionFrom (n prevHi : ℤ) : List SpineRow → Option Absorption
  | [] => none
  | r :: rows =>
    match r.hi? with
    | none => absorptionFrom n prevHi rows
    | some hi =>
      if hi ≤ prevHi then absorptionFrom n prevHi rows
      else if prevHi < n ∧ n ≤ hi then
        some ⟨prevHi + 1, hi, hi - prevHi, r.handle, decide (1 < hi - prevHi)⟩
      else absorptionFrom n hi rows

/-- `spine_absorption` -/
def spineAbsorption (rows : List SpineRow) (n : ℤ) : Option Absorption := absorptionFrom n 0 rows

/-- A stretch of the spine, and the name that is shown for it. -/
structure Segment where
  lo : ℤ
  hi : ℤ
  handle : Option String
deriving DecidableEq

/-- The state of the walk: the segments so far, the head, the key of the last advance, and the
    height of the first row that raised it. -/
structure SegmentWalk where
  segs : List Segment
  prevHi : ℤ
  prevPk : Option String
  firstHi : Option ℤ

/-- The key of a row in lower case, empty where there is none. -/
def SpineRow.key (r : SpineRow) : String := (r.pubkey.getD "").toLower

/-- The name that is shown. -/
def SpineRow.shown (blk : List String) (r : SpineRow) : Option String :=
  if r.key ∈ blk then some "[removed]" else r.handle

/-- One row of the walk. One that does not raise the head is passed over; one of the last key makes
    the last segment longer, and another opens one. -/
def segmentStep (blk : List String) (w : SegmentWalk) (r : SpineRow) : SegmentWalk :=
  match r.hi? with
  | none => w
  | some hi =>
    if hi ≤ w.prevHi then w
    else
      let segs := match w.segs.getLast? with
        | none => [⟨w.prevHi + 1, hi, r.shown blk⟩]
        | some last =>
          if some r.key = w.prevPk then
            w.segs.dropLast ++ [{ last with hi := hi, handle := r.shown blk }]
          else w.segs ++ [⟨w.prevHi + 1, hi, r.shown blk⟩]
      ⟨segs, hi, some r.key, w.firstHi.or (some hi)⟩

/-- The whole walk. -/
def segmentWalk (blk : List String) (rows : List SpineRow) : SegmentWalk :=
  rows.foldl (segmentStep blk) ⟨[], 0, none, none⟩

/-- `spine_segments` -/
def spineSegments (blk : List String) (rows : List SpineRow) : List Segment × Option ℤ :=
  let w := segmentWalk blk rows
  (w.segs, w.firstHi)

/-! ## The advances -/

/-- The head after a row. -/
def raise (head : ℤ) (r : SpineRow) : ℤ := max head (r.hi?.getD head)

/-- The greatest head on record. -/
def recordedHead (rows : List SpineRow) : ℤ := rows.foldl raise 0

/-- The row `r`, after `pre`, raises the head to `hi`. -/
structure Advance (rows pre : List SpineRow) (r : SpineRow) (hi : ℤ) : Prop where
  /-- A row of the log, at this place of it. -/
  placed : ∃ post, rows = pre ++ r :: post
  /-- Its id names the height it goes up to. -/
  reads : r.hi? = some hi
  /-- Which is above all that the rows before it have. -/
  raises : recordedHead pre < hi

/-- The segments tile the blocks up to the head, with a key for each that is not its neighbours',
and a block was absorbed by the advance that first reached it, within a segment of its key. -/
structure SpinePartition (blk : List String) (rows : List SpineRow) : Prop where
  /-- There are segments just where something was recorded. -/
  empty : (spineSegments blk rows).1 = [] ↔ recordedHead rows = 0
  first : ∀ g ∈ (spineSegments blk rows).1.head?, g.lo = 1
  /-- No block is left out between two, and none is in both. -/
  contiguous : (spineSegments blk rows).1.IsChain fun g g' => g'.lo = g.hi + 1
  filled : ∀ g ∈ (spineSegments blk rows).1, g.lo ≤ g.hi
  last : ∀ g ∈ (spineSegments blk rows).1.getLast?, g.hi = recordedHead rows
  /-- Each has a key; it is ended by another key, and what an advance has absorbed is in one of its
      own key. -/
  keyed : ∃ keyed : List (Segment × String), keyed.map Prod.fst = (spineSegments blk rows).1 ∧
    (keyed.IsChain fun x y => x.2 ≠ y.2) ∧ ∀ pre r hi, Advance rows pre r hi →
      ∃ x ∈ keyed, x.2 = r.key ∧ x.1.lo ≤ recordedHead pre + 1 ∧ hi ≤ x.1.hi
  /-- A block was absorbed by exactly one advance, and that is what the lookup gives, with the width
      of the advance and whether it was a fold. -/
  absorbed : ∀ n, 1 ≤ n → n ≤ recordedHead rows → ∃ pre r hi, Advance rows pre r hi ∧
    recordedHead pre < n ∧ n ≤ hi ∧ (∀ pre' r' hi', Advance rows pre' r' hi' →
      recordedHead pre' < n → n ≤ hi' → pre' = pre) ∧
    spineAbsorption rows n = some ⟨recordedHead pre + 1, hi, hi - recordedHead pre, r.handle,
      decide (1 < hi - recordedHead pre)⟩

variable {blk : List String} {rows pre post : List SpineRow} {r x : SpineRow} {head hi n : ℤ}

theorem raise_of_none (h : r.hi? = none) : raise head r = head := by
  unfold raise
  rw [h]
  exact max_self head

theorem raise_of_some (h : r.hi? = some hi) : raise head r = max head hi := by
  unfold raise
  rw [h]
  rfl

theorem le_raise (head : ℤ) (r : SpineRow) : head ≤ raise head r := le_max_left _ _

/-- The head after one more row. -/
theorem recordedHead_concat (rows : List SpineRow) (r : SpineRow) :
    recordedHead (rows ++ [r]) = raise (recordedHead rows) r := by
  unfold recordedHead
  rw [List.foldl_append]
  rfl

theorem le_foldl_raise (head : ℤ) (rows : List SpineRow) : head ≤ rows.foldl raise head := by
  induction rows generalizing head with
  | nil => exact le_refl head
  | cons r rows ih => exact (le_raise head r).trans (ih (raise head r))

/-- The head does not go down. -/
theorem recordedHead_le_append (pre post : List SpineRow) :
    recordedHead pre ≤ recordedHead (pre ++ post) := by
  unfold recordedHead
  rw [List.foldl_append]
  exact le_foldl_raise _ post

/-- An advance raises the head to where it reaches. -/
theorem Advance.reached (h : Advance rows pre r hi) : recordedHead (pre ++ [r]) = hi := by
  rw [recordedHead_concat, raise_of_some h.reads]
  exact max_eq_right h.raises.le

/-- The advances of a longer log: those there were, and the last row where it raises the head. -/
theorem advance_concat (h : Advance (rows ++ [r]) pre x hi) :
    Advance rows pre x hi ∨ (pre = rows ∧ x = r) := by
  obtain ⟨post, heq⟩ := h.placed
  rcases List.eq_nil_or_concat post with rfl | ⟨post, last, rfl⟩
  · obtain ⟨rfl, hlast⟩ := List.append_inj' heq rfl
    exact .inr ⟨rfl, (List.cons.inj hlast).1.symm⟩
  · rw [List.concat_eq_append, ← List.cons_append, ← List.append_assoc] at heq
    obtain ⟨heq, -⟩ := List.append_inj' heq rfl
    exact .inl ⟨⟨post, heq⟩, h.reads, h.raises⟩

/-! ## The segments -/

/-- What the walk knows after `rows`: the segments, each with its key. -/
structure Walked (blk : List String) (rows : List SpineRow) (w : SegmentWalk)
    (keyed : List (Segment × String)) : Prop where
  segs : keyed.map Prod.fst = w.segs
  /-- The walk has the head so far. -/
  head : w.prevHi = recordedHead rows
  empty : keyed = [] ↔ recordedHead rows = 0
  /-- The last segment ends there, and its key is the one that the next row is compared with. -/
  last : ∀ x ∈ keyed.getLast?, x.1.hi = w.prevHi ∧ w.prevPk = some x.2
  first : ∀ x ∈ keyed.head?, x.1.lo = 1
  /-- The segments meet, and neighbours have different keys. -/
  chain : keyed.IsChain fun x y => y.1.lo = x.1.hi + 1 ∧ x.2 ≠ y.2
  filled : ∀ x ∈ keyed, x.1.lo ≤ x.1.hi
  /-- What an advance has absorbed is in a segment of its key. -/
  holds : ∀ pre r hi, Advance rows pre r hi →
    ∃ x ∈ keyed, x.2 = r.key ∧ x.1.lo ≤ recordedHead pre + 1 ∧ hi ≤ x.1.hi

variable {w : SegmentWalk} {keyed : List (Segment × String)}

/-- A row that does not raise the head is passed over. -/
theorem Walked.skip (h : Walked blk rows w keyed)
    (hsame : recordedHead (rows ++ [r]) = recordedHead rows) : Walked blk (rows ++ [r]) w keyed := by
  refine ⟨h.segs, by rw [hsame, h.head], by rw [hsame, h.empty], h.last, h.first, h.chain,
    h.filled, ?_⟩
  intro pre x hi hadv
  rcases advance_concat hadv with hadv' | ⟨rfl, rfl⟩
  · exact h.holds pre x hi hadv'
  · have hreached := hadv.reached
    rw [hsame] at hreached
    exact absurd hreached hadv.raises.ne

/-- The head begins at 0. -/
theorem recordedHead_nonneg (rows : List SpineRow) : 0 ≤ recordedHead rows := le_foldl_raise 0 rows

/-- The row that is put behind the log, where it raises the head. -/
theorem advance_last (hreads : r.hi? = some hi) (hraises : recordedHead rows < hi) :
    Advance (rows ++ [r]) rows r hi := ⟨⟨[], rfl⟩, hreads, hraises⟩

/-- A row of another key opens a segment. -/
theorem Walked.opened (h : Walked blk rows w keyed) (hreads : r.hi? = some hi)
    (hraises : recordedHead rows < hi) (hother : ∀ x ∈ keyed.getLast?, x.2 ≠ r.key)
    (name : Option String) (firstHi : Option ℤ) :
    Walked blk (rows ++ [r])
      ⟨w.segs ++ [⟨w.prevHi + 1, hi, name⟩], hi, some r.key, firstHi⟩
      (keyed ++ [(⟨w.prevHi + 1, hi, name⟩, r.key)]) := by
  have hadv := advance_last hreads hraises
  have hhead : recordedHead (rows ++ [r]) = hi := hadv.reached
  have hpos := recordedHead_nonneg rows
  rw [h.head]
  refine ⟨?_, hhead.symm, ?_, ?_, ?_, ?_, ?_, ?_⟩
  · rw [List.map_append, h.segs, List.map_singleton]
  · rw [hhead]
    constructor
    · intro hnil
      simp at hnil
    · intro hzero
      omega
  · intro x hx
    rw [List.getLast?_append_of_ne_nil _ (List.cons_ne_nil _ _)] at hx
    obtain rfl := Option.some.inj hx
    exact ⟨rfl, rfl⟩
  · intro x hx
    -- the first segment starts at the first block
    cases hkeyed : keyed with
    | nil =>
      rw [hkeyed] at hx
      obtain rfl := Option.some.inj hx
      dsimp only
      rw [h.empty.mp hkeyed, zero_add]
    | cons y ys =>
      rw [hkeyed] at hx
      exact h.first x (by rw [hkeyed]; exact hx)
  · rw [List.isChain_append]
    refine ⟨h.chain, List.isChain_singleton _, ?_⟩
    intro x hx y hy
    obtain rfl := Option.some.inj hy
    refine ⟨?_, hother x hx⟩
    rw [(h.last x hx).1, h.head]
  · intro x hx
    rcases List.mem_append.mp hx with hx | hx
    · exact h.filled x hx
    · rw [List.mem_singleton.mp hx]
      exact hraises
  · intro pre x hi' hadv'
    -- an earlier advance keeps its segment, and the new one has the segment just opened
    rcases advance_concat hadv' with hold | ⟨rfl, rfl⟩
    · obtain ⟨y, hy, hin⟩ := h.holds pre x hi' hold
      exact ⟨y, List.mem_append_left _ hy, hin⟩
    · refine ⟨_, List.mem_append_right _ (List.mem_singleton_self _), rfl, le_refl _, ?_⟩
      exact (Option.some.inj (hadv'.reads.symm.trans hreads)).le

/-- A row of the same key makes the last segment longer. -/
theorem Walked.extended {init : List (Segment × String)} {y : Segment × String}
    (h : Walked blk rows w (init ++ [y])) (hreads : r.hi? = some hi)
    (hraises : recordedHead rows < hi) (hsame : y.2 = r.key) (name : Option String)
    (firstHi : Option ℤ) :
    Walked blk (rows ++ [r])
      ⟨w.segs.dropLast ++ [{ y.1 with hi := hi, handle := name }], hi, some r.key, firstHi⟩
      (init ++ [({ y.1 with hi := hi, handle := name }, r.key)]) := by
  have hadv := advance_last hreads hraises
  have hhead : recordedHead (rows ++ [r]) = hi := hadv.reached
  have hpos := recordedHead_nonneg rows
  -- the segment in hand ends at the head
  have hy : y.1.hi = recordedHead rows := by
    rw [← h.head]
    exact (h.last y (by simp)).1
  have hfilled := h.filled y (by simp)
  obtain ⟨hchain, -, hlink⟩ := List.isChain_append.mp h.chain
  refine ⟨?_, hhead.symm, ?_, ?_, ?_, ?_, ?_, ?_⟩
  · rw [← h.segs]
    simp
  · rw [hhead]
    constructor
    · intro hnil
      simp at hnil
    · intro hzero
      omega
  · intro x hx
    rw [List.getLast?_append_of_ne_nil _ (List.cons_ne_nil _ _)] at hx
    obtain rfl := Option.some.inj hx
    exact ⟨rfl, rfl⟩
  · intro x hx
    cases init with
    | nil =>
      obtain rfl := Option.some.inj hx
      exact h.first y rfl
    | cons z zs => exact h.first x hx
  · rw [List.isChain_append]
    refine ⟨hchain, List.isChain_singleton _, ?_⟩
    intro x hx z hz
    obtain rfl := Option.some.inj hz
    rw [← hsame]
    exact hlink x hx y rfl
  · intro x hx
    rcases List.mem_append.mp hx with hx | hx
    · exact h.filled x (List.mem_append_left _ hx)
    · rw [List.mem_singleton.mp hx]
      dsimp only
      omega
  · intro pre x hi' hadv'
    -- the segment only grew, so what it held it still holds
    rcases advance_concat hadv' with hold | ⟨rfl, rfl⟩
    · obtain ⟨z, hz, hkey, hlo, hhi⟩ := h.holds pre x hi' hold
      rcases List.mem_append.mp hz with hz | hz
      · exact ⟨z, List.mem_append_left _ hz, hkey, hlo, hhi⟩
      · obtain rfl := List.mem_singleton.mp hz
        refine ⟨_, List.mem_append_right _ (List.mem_singleton_self _), ?_, hlo, ?_⟩
        · exact hsame.symm.trans hkey
        · dsimp only
          omega
    · refine ⟨_, List.mem_append_right _ (List.mem_singleton_self _), rfl, ?_, ?_⟩
      · dsimp only
        omega
      · exact (Option.some.inj (hadv'.reads.symm.trans hreads)).le

/-- **A row takes the walk along.** It is passed over, opens a segment, or makes the last one
    longer. -/
theorem Walked.step (h : Walked blk rows w keyed) (r : SpineRow) :
    ∃ keyed', Walked blk (rows ++ [r]) (segmentStep blk w r) keyed' := by
  unfold segmentStep
  cases hreads : r.hi? with
  | none =>
    refine ⟨keyed, h.skip ?_⟩
    rw [recordedHead_concat, raise_of_none hreads]
  | some hi =>
    dsimp only
    split
    · rename_i hle
      refine ⟨keyed, h.skip ?_⟩
      rw [h.head] at hle
      rw [recordedHead_concat, raise_of_some hreads, max_eq_left hle]
    · rename_i hgt
      have hraises : recordedHead rows < hi := by
        rw [← h.head]
        exact not_le.mp hgt
      rcases List.eq_nil_or_concat keyed with rfl | ⟨init, y, hkeyed⟩
      · have hsegs : w.segs = [] := h.segs.symm
        have hopened := h.opened hreads hraises (by simp) (r.shown blk) (w.firstHi.or (some hi))
        rw [hsegs] at hopened ⊢
        exact ⟨_, hopened⟩
      · rw [List.concat_eq_append] at hkeyed
        subst hkeyed
        have hlast : w.segs.getLast? = some y.1 := by
          rw [← h.segs]
          simp
        have hpk : w.prevPk = some y.2 := (h.last y (by simp)).2
        rw [hlast, hpk]
        dsimp only
        split
        · rename_i hsame
          have hkey : y.2 = r.key := (Option.some.inj hsame).symm
          exact ⟨_, h.extended hreads hraises hkey (r.shown blk) (w.firstHi.or (some hi))⟩
        · rename_i hother
          refine ⟨_, h.opened hreads hraises ?_ (r.shown blk) (w.firstHi.or (some hi))⟩
          intro x hx heq
          obtain rfl : y = x := by simpa using hx
          exact hother (by rw [heq])

/-- The walk over a whole log has the segments of its advances. -/
theorem walked (blk : List String) (rows : List SpineRow) :
    ∃ keyed, Walked blk rows (segmentWalk blk rows) keyed := by
  induction rows using List.reverseRecOn with
  | nil =>
    refine ⟨[], rfl, rfl, by simp [recordedHead], by simp, by simp, List.isChain_nil, by simp, ?_⟩
    intro pre r hi hadv
    obtain ⟨post, heq⟩ := hadv.placed
    simp at heq
  | append_singleton rows r ih =>
    obtain ⟨keyed, h⟩ := ih
    unfold segmentWalk
    rw [List.foldl_append]
    exact h.step r

/-! ## The absorption -/

/-- **What the second walk finds**: the first row that reaches the block, with the head as it was
    before it. -/
theorem absorptionFrom_spec {prevHi : ℤ} (hprev : prevHi < n)
    (hn : n ≤ rows.foldl raise prevHi) : ∃ pre r post hi, rows = pre ++ r :: post ∧
      r.hi? = some hi ∧ pre.foldl raise prevHi < n ∧ n ≤ hi ∧
      absorptionFrom n prevHi rows = some ⟨pre.foldl raise prevHi + 1, hi,
        hi - pre.foldl raise prevHi, r.handle, decide (1 < hi - pre.foldl raise prevHi)⟩ := by
  induction rows generalizing prevHi with
  | nil => exact absurd hprev (not_lt.mpr hn)
  | cons r rows ih =>
    rw [List.foldl_cons] at hn
    -- the walk goes on behind the row, with the head there
    have hnext : ∀ head, raise prevHi r = head → head < n → absorptionFrom n prevHi (r :: rows) =
        absorptionFrom n head rows → ∃ pre x post hi, r :: rows = pre ++ x :: post ∧
          x.hi? = some hi ∧ pre.foldl raise prevHi < n ∧ n ≤ hi ∧
          absorptionFrom n prevHi (r :: rows) = some ⟨pre.foldl raise prevHi + 1, hi,
            hi - pre.foldl raise prevHi, x.handle,
            decide (1 < hi - pre.foldl raise prevHi)⟩ := by
      intro head hhead hlt hwalk
      rw [hhead] at hn
      obtain ⟨pre, x, post, hi, heq, hreads, hbefore, hreach, hsome⟩ := ih hlt hn
      rw [hwalk, heq]
      rw [heq] at hsome
      rw [← hhead] at hsome hbefore ⊢
      exact ⟨r :: pre, x, post, hi, rfl, hreads, hbefore, hreach, hsome⟩
    cases hreads : r.hi? with
    | none =>
      apply hnext prevHi (raise_of_none hreads) hprev
      rw [absorptionFrom, hreads]
    | some hi =>
      by_cases hle : hi ≤ prevHi
      · apply hnext prevHi _ hprev
        · rw [absorptionFrom, hreads]
          dsimp only
          rw [if_pos hle]
        · rw [raise_of_some hreads, max_eq_left hle]
      · by_cases hin : n ≤ hi
        · refine ⟨[], r, rows, hi, rfl, hreads, hprev, hin, ?_⟩
          rw [absorptionFrom, hreads]
          dsimp only
          rw [if_neg hle, if_pos ⟨hprev, hin⟩]
          rfl
        · apply hnext hi _ (not_le.mp hin)
          · rw [absorptionFrom, hreads]
            dsimp only
            rw [if_neg hle, if_neg fun h => hin h.2]
          · rw [raise_of_some hreads, max_eq_right (not_le.mp hle).le]

/-- What comes behind an advance finds the head where it reached, or above. -/
theorem Advance.le_later {pre' : List SpineRow} {r' : SpineRow} {hi' : ℤ}
    (h : Advance rows pre r hi) (h' : Advance rows pre' r' hi') {l : List SpineRow}
    (hl : l ≠ []) (hlater : pre' = pre ++ l) : hi ≤ recordedHead pre' := by
  obtain ⟨post, heq⟩ := h.placed
  obtain ⟨post', heq'⟩ := h'.placed
  obtain ⟨x, l, rfl⟩ := List.exists_cons_of_ne_nil hl
  rw [heq', hlater, List.append_assoc] at heq
  obtain ⟨rfl, -⟩ := List.cons.inj (List.append_cancel_left heq)
  have hsplit : pre' = (pre ++ [x]) ++ l := by
    rw [hlater, List.append_assoc, List.singleton_append]
  rw [hsplit, ← h.reached]
  exact recordedHead_le_append (pre ++ [x]) l

/-- One advance reaches a block first. -/
theorem Advance.unique {pre' : List SpineRow} {r' : SpineRow} {hi' : ℤ}
    (h : Advance rows pre r hi) (h' : Advance rows pre' r' hi') (hbefore : recordedHead pre < n)
    (hreach : n ≤ hi) (hbefore' : recordedHead pre' < n) (hreach' : n ≤ hi') : pre' = pre := by
  obtain ⟨post, heq⟩ := h.placed
  obtain ⟨post', heq'⟩ := h'.placed
  rw [heq] at heq'
  rcases List.append_eq_append_iff.mp heq' with ⟨l, hl, -⟩ | ⟨l, hl, -⟩
  · by_cases hnil : l = []
    · rw [hl, hnil, List.append_nil]
    · have hle := h.le_later h' hnil hl
      omega
  · by_cases hnil : l = []
    · rw [hl, hnil, List.append_nil]
    · have hle := h'.le_later h hnil hl
      omega

/-- **Spine attribution is a partition.** The segments tile the blocks up to the head, in order and
    without gaps, and each block was absorbed by one advance, which lies within a segment of its
    key; the lookup gives that advance. -/
theorem spine_partition (blk : List String) (rows : List SpineRow) : SpinePartition blk rows := by
  obtain ⟨keyed, h⟩ := walked blk rows
  have hsegs : (spineSegments blk rows).1 = keyed.map Prod.fst := h.segs.symm
  refine ⟨?_, ?_, ?_, ?_, ?_, ?_, ?_⟩
  · rw [hsegs, List.map_eq_nil_iff]
    exact h.empty
  · rw [hsegs]
    intro g hg
    rw [List.head?_map] at hg
    obtain ⟨x, hx, rfl⟩ := Option.map_eq_some_iff.mp hg
    exact h.first x hx
  · rw [hsegs, List.isChain_map]
    exact h.chain.imp fun _ _ hlink => hlink.1
  · rw [hsegs]
    intro g hg
    obtain ⟨x, hx, rfl⟩ := List.mem_map.mp hg
    exact h.filled x hx
  · rw [hsegs]
    intro g hg
    rw [List.getLast?_map] at hg
    obtain ⟨x, hx, rfl⟩ := Option.map_eq_some_iff.mp hg
    rw [(h.last x hx).1, h.head]
  · exact ⟨keyed, h.segs, h.chain.imp fun _ _ hlink => hlink.2, h.holds⟩
  · intro n hpos hn
    obtain ⟨pre, r, post, hi, heq, hreads, hbefore, hreach, hsome⟩ :=
      absorptionFrom_spec (hpos : (0 : ℤ) < n) hn
    have hadv : Advance rows pre r hi := ⟨⟨post, heq⟩, hreads, lt_of_lt_of_le hbefore hreach⟩
    refine ⟨pre, r, hi, hadv, hbefore, hreach, ?_, hsome⟩
    intro pre' r' hi' hadv' hbefore' hreach'
    exact hadv.unique hadv' hbefore hreach hbefore' hreach'

end Coordinator
end Hazync
