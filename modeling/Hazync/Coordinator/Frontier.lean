import Mathlib.Algebra.Order.Field.Rat
import Mathlib.Data.List.Sort
import Mathlib.Data.Prod.Lex
import Hazync.Guest.Genesis
import Hazync.Lib.HeaviestPath

/-!
# The frontier (`_frontier_chain`, `coordinator/server.py`)

The coordinator keeps a table of verified ranges, in any order and with gaps, overlaps and forks,
and takes for its chain the seamed ranges from genesis with the most work. One pass over the
table in the order of `lo` finds it: a seam raises `lo`, so what can come before a range is visited
before it.

## Two halves

The first half is that the walk finds a chain of the most work. Ranges and seams are a graph in
which every edge raises `lo`, so one pass in the order of `lo` is the pass of
`Hazync.Lib.HeaviestPath`: when a range is visited, all ranges that it can seam to have their final
value. `visit_eq` says that the code's loop is that pass, with its two comparisons in one key.

The second half is which of several such chains it is. Among ranges of equal work and height the
first visited wins, and the order of visits is by `lo` and then by the time of recording. So the
answer depends on the set of ranges alone exactly where those of the lowest start agree in what the
frontier shows of them (`Decided`); the converse builds a table of the same set, with other times,
for each of them.
-/

namespace Hazync
namespace Coordinator

open ByteStrings HeaviestPath

/-- What `_frontier_chain` reads of a range. A digest is hex of 32 bytes, and `NULL` and the empty
    string are `none`; of `range_work` the number that `int` reads in it. -/
structure VRange where
  lo : ℕ
  hi : ℕ
  inTip : Bytes32
  outTip : Bytes32
  inBhash : Option Bytes32
  outBhash : Option Bytes32
  rangeWork : ℕ
  outLeaves : Option ℕ
  deriving DecidableEq

/-- A row of `vranges`. A `ts` that is `NULL` comes before all others. -/
structure VRow extends VRange where
  id : String
  pubkey : String
  handle : String
  ts : WithBot ℚ
  deriving DecidableEq

/-- `(hi, tip_hash, cum_work, leaves)` -/
structure Frontier where
  hi : ℕ
  tipHash : Bytes32
  cumWork : ℕ
  leaves : ℕ
  deriving DecidableEq

def GENESIS_TIP : Bytes32 := Guest.GENESIS_HASH

/-- `is_genesis_anchored` -/
def isGenesisAnchored (inTip : Bytes32) (lo : ℕ) : Prop := inTip = GENESIS_TIP ∧ lo = 1

instance (inTip : Bytes32) (lo : ℕ) : Decidable (isGenesisAnchored inTip lo) :=
  inferInstanceAs (Decidable (_ ∧ _))

/-- `ORDER BY lo, ts` -/
def orderByLoTs (table : List VRow) : List VRow :=
  table.insertionSort fun a b => toLex (a.lo, a.ts) ≤ toLex (b.lo, b.ts)

/-- `best`, by row where the code has it by the row's number, and `frontier`. -/
structure Walk where
  best : List (VRow × ℕ)
  frontier : Frontier

/-- The seam of `b` on `a`: tip, digest and height. -/
def Seam (a b : VRange) : Prop :=
  a.outTip = b.inTip ∧ a.outBhash = b.inBhash ∧ a.hi + 1 = b.lo

instance (a b : VRange) : Decidable (Seam a b) := inferInstanceAs (Decidable (_ ∧ _ ∧ _))

/-- The loop over the rows that end at `in_tip`, of which those in `best` count. -/
def bestSeam (best : List (VRow × ℕ)) (r : VRange) : Option ℕ :=
  best.foldl
    (fun bestPred p =>
      if Seam p.1.toVRange r ∧ ∀ pw ∈ bestPred, pw < p.2 then some p.2 else bestPred)
    none

/-- The work of the chain that ends at `r`. -/
def cumWork (best : List (VRow × ℕ)) (r : VRange) : Option ℕ :=
  if isGenesisAnchored r.inTip r.lo then some r.rangeWork
  else (bestSeam best r).map (· + r.rangeWork)

/-- What the frontier is after a chain with work `cw` that ends at `r`. -/
def VRange.frontier (r : VRange) (cw : ℕ) : Frontier := ⟨r.hi, r.outTip, cw, r.outLeaves.getD 0⟩

/-- One row of the walk. -/
def visit (w : Walk) (r : VRow) : Walk :=
  if r.inBhash = none then w
  else
    match cumWork w.best r.toVRange with
    | none => w
    | some cw =>
      { best := w.best ++ [(r, cw)]
        frontier :=
          if cw > w.frontier.cumWork ∨ (cw = w.frontier.cumWork ∧ r.hi > w.frontier.hi) then
            r.toVRange.frontier cw
          else w.frontier }

/-- Before any chain lands. -/
def Frontier.empty : Frontier := ⟨0, GENESIS_TIP, 0, 0⟩

/-- `_frontier_chain` -/
def frontierChain (table : List VRow) : Frontier :=
  ((orderByLoTs table).foldl visit ⟨[], .empty⟩).frontier

/-! ## The chains of a table -/

/-- The ranges that a table holds. -/
def ranges (table : List VRow) : Set VRange := {b | ∃ r ∈ table, r.toVRange = b}

/-- A chain of ranges in `S`: it starts at genesis, every range has its digest, and each seams to
    the next. A seam asks for the tip, the digest and the height. -/
structure Chain (S : Set VRange) (chain : List VRange) : Prop where
  mem : ∀ r ∈ chain, r ∈ S
  /-- The first range begins at block 1, on the tip of genesis. -/
  anchored : ∃ r ∈ chain.head?, isGenesisAnchored r.inTip r.lo
  /-- A row from before the digests has none, and is in no chain. -/
  digest : ∀ r ∈ chain, r.inBhash ≠ none
  seams : chain.IsChain Seam

/-- The total `range_work`. -/
def work (chain : List VRange) : ℕ := total VRange.rangeWork chain

/-- A chain goes on to a range with a digest over a seam. -/
def Link (a b : VRange) : Prop := b.inBhash ≠ none ∧ Seam a b

def First (r : VRange) : Prop := r.inBhash ≠ none ∧ isGenesisAnchored r.inTip r.lo

instance : DecidableRel Link := fun _ _ => inferInstanceAs (Decidable (_ ∧ _))
instance : DecidablePred First := fun _ => inferInstanceAs (Decidable (_ ∧ _))

variable {S : Set VRange} {table : List VRow} {chain : List VRange} {r : VRange}

theorem isPath_iff_chain : IsPath Link First S chain ↔ Chain S chain := by
  constructor
  · rintro ⟨hmem, ⟨a, ha, hdigest, hanchored⟩, hchain⟩
    refine ⟨hmem, ⟨a, ha, hanchored⟩, ?_, hchain.imp fun _ _ h => h.2⟩
    refine hchain.induction (fun r => r.inBhash ≠ none) chain (fun _ _ h _ => h.1) fun hne => ?_
    rw [List.head?_eq_some_head hne] at ha
    exact Option.some.inj ha ▸ hdigest
  · rintro ⟨hmem, ⟨a, ha, hanchored⟩, hdigest, hseams⟩
    exact ⟨hmem, ⟨a, ha, hdigest a (List.mem_of_mem_head? ha), hanchored⟩,
      hseams.imp_of_mem_tail_imp fun _ b _ hb h => ⟨hdigest b (List.mem_of_mem_tail hb), h⟩⟩

/-! ## The walk is the pass over heaviest paths -/

/-- What the walk keeps for each row. -/
def bestOf (rows : List VRow) : List (VRow × ℕ) :=
  reached VRow.toVRange Link First VRange.rangeWork rows

/-- Chains are compared by their work, and then by their height. -/
def Frontier.key (f : Frontier) : ℕ ×ₗ ℕ := toLex (f.cumWork, f.hi)

def entryFrontier (p : VRow × ℕ) : Frontier := p.1.toVRange.frontier p.2

/-- The loop over the rows that end at `in_tip` is the maximum over the predecessors. -/
theorem bestSeam_eq {best : List (VRow × ℕ)} (hdigest : r.inBhash ≠ none) :
    bestSeam best r = bestPred VRow.toVRange Link best r := by
  rw [bestSeam, bestPred]
  induction best using List.reverseRecOn with
  | nil => rfl
  | append_singleton best p ih =>
    have hlink : Link p.1.toVRange r ↔ Seam p.1.toVRange r := and_iff_right hdigest
    rw [List.foldl_append, ih, List.filter_append, List.map_append, List.filter_singleton]
    by_cases hseam : Seam p.1.toVRange r
    · rw [decide_eq_true (hlink.mpr hseam)]
      cases hmax : ((best.filter fun p => Link p.1.toVRange r).map Prod.snd).max? with
      | none =>
        rw [List.max?_eq_none_iff.mp hmax]
        simp [hseam]
      | some m =>
        obtain ⟨hm, hle⟩ := List.max?_eq_some_iff.mp hmax
        by_cases hlt : m < p.2
        · simp only [List.foldl_cons, List.foldl_nil, hseam, true_and, Option.mem_some_iff,
            forall_eq', hlt, if_true]
          refine (List.max?_eq_some_iff.mpr ⟨by simp, ?_⟩).symm
          intro w hw
          rw [List.mem_append] at hw
          obtain hw | hw := hw
          · exact (hle w hw).trans hlt.le
          · simpa using (List.mem_singleton.mp hw).le
        · simp only [List.foldl_cons, List.foldl_nil, hseam, true_and, Option.mem_some_iff,
            forall_eq', hlt, if_false]
          refine (List.max?_eq_some_iff.mpr ⟨List.mem_append_left _ hm, ?_⟩).symm
          intro w hw
          rw [List.mem_append] at hw
          obtain hw | hw := hw
          · exact hle w hw
          · exact (List.mem_singleton.mp hw).trans_le (not_lt.mp hlt)
    · rw [decide_eq_false (mt hlink.mp hseam)]
      simp [hseam]

theorem cumWork_eq {best : List (VRow × ℕ)} (hdigest : r.inBhash ≠ none) :
    cumWork best r = value VRow.toVRange Link First VRange.rangeWork best r := by
  have hfirst : First r ↔ isGenesisAnchored r.inTip r.lo := and_iff_right hdigest
  rw [cumWork, value, bestSeam_eq hdigest]
  simp only [hfirst]

/-- Without a digest no path reaches a row. -/
theorem value_none {best : List (VRow × ℕ)} (hdigest : r.inBhash = none) :
    value VRow.toVRange Link First VRange.rangeWork best r = none := by
  have hfirst : ¬ First r := fun h => h.1 hdigest
  have hlink : ∀ p : VRow × ℕ, ¬ Link p.1.toVRange r := fun p h => h.1 hdigest
  rw [value, if_neg hfirst, bestPred]
  simp [hlink]

theorem key_lt_iff {f g : Frontier} :
    f.key < g.key ↔ g.cumWork > f.cumWork ∨ (g.cumWork = f.cumWork ∧ g.hi > f.hi) := by
  rw [Frontier.key, Frontier.key, Prod.Lex.toLex_lt_toLex, eq_comm]

/-- One row of the walk is one step of the pass, and the frontier is the first of the greatest keys
    so far. -/
theorem visit_eq {best : List (VRow × ℕ)} {f : Frontier} {x : VRow} :
    visit ⟨best, f⟩ x =
      match value VRow.toVRange Link First VRange.rangeWork best x.toVRange with
      | some w => ⟨best ++ [(x, w)],
          if f.key < (entryFrontier (x, w)).key then entryFrontier (x, w) else f⟩
      | none => ⟨best, f⟩ := by
  rw [visit]
  by_cases hdigest : x.inBhash = none
  · rw [if_pos hdigest, value_none hdigest]
  · rw [if_neg hdigest, cumWork_eq hdigest]
    cases value VRow.toVRange Link First VRange.rangeWork best x.toVRange with
    | none => rfl
    | some w => simp only [key_lt_iff, entryFrontier, VRange.frontier]

theorem bestOf_concat {rows : List VRow} {x : VRow} : bestOf (rows ++ [x]) =
    reach VRow.toVRange Link First VRange.rangeWork (bestOf rows) x := reached_concat

/-- The frontiers that rows stand for. -/
def candidates (rows : List VRow) : List Frontier := (bestOf rows).map entryFrontier

/-- The walk keeps what the pass keeps, and the first of the best of it. -/
theorem foldl_visit {rows : List VRow} : rows.foldl visit ⟨[], .empty⟩ =
    ⟨bestOf rows, firstMax Frontier.key .empty (candidates rows)⟩ := by
  induction rows using List.reverseRecOn with
  | nil => rfl
  | append_singleton rows x ih =>
    rw [List.foldl_append, ih, List.foldl_cons, List.foldl_nil, visit_eq, candidates, candidates,
      bestOf_concat, reach]
    cases value VRow.toVRange Link First VRange.rangeWork (bestOf rows) x.toVRange with
    | none => rfl
    | some w =>
      rw [firstMax, firstMax, List.map_append, List.foldl_append]
      rfl

theorem frontierChain_eq :
    frontierChain table = firstMax Frontier.key .empty (candidates (orderByLoTs table)) := by
  rw [frontierChain, foldl_visit]

/-! ## The order of the visits -/

theorem mem_orderByLoTs {x : VRow} : x ∈ orderByLoTs table ↔ x ∈ table :=
  List.mem_insertionSort _

theorem ranges_orderByLoTs : ranges (orderByLoTs table) = ranges table := by
  simp only [ranges, mem_orderByLoTs]

theorem pairwise_orderByLoTs : (orderByLoTs table).Pairwise fun a b =>
    toLex (a.lo, a.ts) ≤ toLex (b.lo, b.ts) := List.pairwise_insertionSort _ _

theorem lo_le_of_order {a b : VRow} (h : toLex (a.lo, a.ts) ≤ toLex (b.lo, b.ts)) :
    a.lo ≤ b.lo := by
  obtain h | h := Prod.Lex.toLex_le_toLex.mp h
  · exact h.le
  · exact h.1.le

/-- The rows of a table, as verified ranges have them. -/
def WellFormed (table : List VRow) : Prop := ∀ r ∈ table, r.lo ≤ r.hi

/-- A seam raises `lo`. -/
theorem WellFormed.lo_lt (h : WellFormed table) {a b : VRange} (ha : a ∈ ranges table)
    (hlink : Link a b) : a.lo < b.lo := by
  obtain ⟨x, hx, rfl⟩ := ha
  rw [← hlink.2.2.2]
  exact Nat.lt_succ_of_le (h x hx)

/-- Every entry has a chain with its work that ends at its row. -/
theorem exists_chain {x : VRow} {w : ℕ} (h : (x, w) ∈ bestOf (orderByLoTs table)) :
    ∃ chain, Chain (ranges table) chain ∧ x.toVRange ∈ chain.getLast? ∧ work chain = w := by
  obtain ⟨chain, hchain, hlast, htotal⟩ := exists_path_of_mem_reached h
  exact ⟨chain, isPath_iff_chain.mp (ranges_orderByLoTs ▸ hchain), hlast, htotal⟩

/-- No chain has more work than the entries of its last range. -/
theorem WellFormed.work_le (h : WellFormed table) (hchain : Chain (ranges table) chain)
    (hr : r ∈ chain.getLast?) : ∀ x ∈ table, x.toVRange = r →
      ∃ w, (x, w) ∈ bestOf (orderByLoTs table) ∧ work chain ≤ w := by
  intro x hx hxr
  have hpath : IsPath Link First (ranges (orderByLoTs table)) chain :=
    ranges_orderByLoTs.symm ▸ isPath_iff_chain.mpr hchain
  refine total_le_of_path VRange.lo 1 ?_ (fun b hb => hb.2.2) ?_ hpath hr x
    (mem_orderByLoTs.mpr hx) hxr
  · intro a b ha _ hlink
    exact h.lo_lt (ranges_orderByLoTs ▸ ha) hlink
  · exact pairwise_orderByLoTs.imp lo_le_of_order

/-- A chain of a well-formed table ends above block 0. -/
theorem WellFormed.hi_pos (h : WellFormed table) (hchain : Chain (ranges table) chain)
    (hr : r ∈ chain.getLast?) : 0 < r.hi := by
  have hpath := isPath_iff_chain.mpr hchain
  obtain ⟨a, ha, hanchored⟩ := hchain.anchored
  have hle : a.lo ≤ r.lo := hpath.rank_le (fun a ha b _ => h.lo_lt ha) hr a
    (List.mem_of_mem_head? ha)
  obtain ⟨x, hx, rfl⟩ := hchain.mem r (List.mem_of_getLast? hr)
  rw [hanchored.2] at hle
  exact lt_of_lt_of_le hle (h x hx)

theorem Chain.exists_last (hchain : Chain S chain) : ∃ r, r ∈ chain.getLast? := by
  obtain ⟨a, ha, -⟩ := hchain.anchored
  exact ⟨_, List.getLast?_eq_some_getLast (List.ne_nil_of_mem (List.mem_of_mem_head? ha))⟩

theorem Chain.exists_row (hchain : Chain (ranges table) chain) (hr : r ∈ chain.getLast?) :
    ∃ x ∈ table, x.toVRange = r := hchain.mem r (List.mem_of_getLast? hr)

/-- No chain has more work than `chain`, and none of the same work ends above `r`. -/
def Most (S : Set VRange) (chain : List VRange) (r : VRange) : Prop :=
  ∀ chain' r', Chain S chain' → r' ∈ chain'.getLast? →
    work chain' < work chain ∨ (work chain' = work chain ∧ r'.hi ≤ r.hi)

/-- `r` ends a chain of the most work, at its highest. -/
def Tops (S : Set VRange) (r : VRange) : Prop :=
  ∃ chain, Chain S chain ∧ r ∈ chain.getLast? ∧ Most S chain r

/-- Chains of the most work have one work and one height. -/
theorem Most.unique {chain' : List VRange} {r' : VRange} (hmost : Most S chain r)
    (hmost' : Most S chain' r') (hchain : Chain S chain) (hr : r ∈ chain.getLast?)
    (hchain' : Chain S chain') (hr' : r' ∈ chain'.getLast?) :
    work chain = work chain' ∧ r.hi = r'.hi := by
  obtain hlt | ⟨hwork, hle⟩ := hmost chain' r' hchain' hr'
  · obtain hlt' | ⟨hwork', -⟩ := hmost' chain r hchain hr
    · exact absurd hlt (lt_asymm hlt')
    · exact absurd hlt (hwork'.symm ▸ lt_irrefl _)
  · obtain hlt' | ⟨-, hle'⟩ := hmost' chain r hchain hr
    · exact absurd hlt' (hwork ▸ lt_irrefl _)
    · exact ⟨hwork.symm, le_antisymm hle' hle⟩

theorem Tops.exists_row (h : Tops (ranges table) r) : ∃ x ∈ table, x.toVRange = r := by
  obtain ⟨chain, hchain, hr, -⟩ := h
  exact hchain.exists_row hr

/-- The walk ends with nothing where there is no chain, and else at a row that tops the table, the
    first visited of those. -/
theorem WellFormed.frontierChain_cases (h : WellFormed table) :
    (frontierChain table = .empty ∧ ∀ chain, ¬ Chain (ranges table) chain) ∨
      ∃ x ∈ table, ∃ chain, Chain (ranges table) chain ∧ x.toVRange ∈ chain.getLast? ∧
        Most (ranges table) chain x.toVRange ∧ frontierChain table = x.toVRange.frontier (work chain) ∧
        ∀ y ∈ table, Tops (ranges table) y.toVRange → toLex (x.lo, x.ts) ≤ toLex (y.lo, y.ts) := by
  rw [frontierChain_eq]
  obtain ⟨hempty, hle⟩ | ⟨pre, post, hsplit, hpre, hpost⟩ :=
    firstMax_cases Frontier.key .empty (candidates (orderByLoTs table))
  · refine .inl ⟨hempty, fun chain hchain => ?_⟩
    obtain ⟨r, hr⟩ := hchain.exists_last
    obtain ⟨x, hx, rfl⟩ := hchain.exists_row hr
    obtain ⟨w, hw, -⟩ := h.work_le hchain hr x hx rfl
    -- an entry is above block 0, and so above the empty frontier
    obtain hlt | ⟨-, hhi⟩ := Prod.Lex.toLex_le_toLex.mp (hle _ (List.mem_map_of_mem hw))
    · exact absurd hlt (Nat.not_lt_zero _)
    · exact absurd (h.hi_pos hchain hr) (Nat.not_lt.mpr hhi)
  · obtain ⟨pre, post', heq, rfl, hpost'⟩ := List.map_eq_append_iff.mp hsplit
    obtain ⟨⟨x, w⟩, post, rfl, hfront, rfl⟩ := List.map_eq_cons_iff.mp hpost'
    rw [← hfront] at hpre hpost
    have hentry : (x, w) ∈ bestOf (orderByLoTs table) :=
      heq ▸ List.mem_append_right _ List.mem_cons_self
    have hxmem : x ∈ table :=
      mem_orderByLoTs.mp (map_reached_sublist.subset (List.mem_map_of_mem hentry))
    obtain ⟨chain, hchain, hlast, rfl⟩ := exists_chain hentry
    -- which entries come no later than the row's own
    have hfirst : ∀ y w', (y, w') ∈ bestOf (orderByLoTs table) →
        (entryFrontier (y, w')).key < (entryFrontier (x, work chain)).key ∨
          ((entryFrontier (y, w')).key ≤ (entryFrontier (x, work chain)).key ∧
            toLex (x.lo, x.ts) ≤ toLex (y.lo, y.ts)) := by
      intro y w' hy
      have horder : ((bestOf (orderByLoTs table)).map Prod.fst).Pairwise fun a b =>
          toLex (a.lo, a.ts) ≤ toLex (b.lo, b.ts) :=
        pairwise_orderByLoTs.sublist map_reached_sublist
      rw [heq] at hy
      obtain hy | hy := List.mem_append.mp hy
      · exact .inl (hpre _ (List.mem_map_of_mem hy))
      · obtain hy | hy := List.mem_cons.mp hy
        · cases hy
          exact .inr ⟨le_refl _, le_refl _⟩
        · rw [heq, List.map_append, List.map_cons] at horder
          have hxy := (List.pairwise_cons.mp (List.pairwise_append.mp horder).2.1).1
          exact .inr ⟨hpost _ (List.mem_map_of_mem hy), hxy y (List.mem_map_of_mem hy)⟩
    have hmost : Most (ranges table) chain x.toVRange := by
      intro chain' r' hchain' hr'
      obtain ⟨y, hy, rfl⟩ := hchain'.exists_row hr'
      obtain ⟨w', hw', hle⟩ := h.work_le hchain' hr' y hy rfl
      have hkey : (entryFrontier (y, w')).key ≤ (entryFrontier (x, work chain)).key :=
        (hfirst y w' hw').elim le_of_lt And.left
      obtain hlt | ⟨heq', hhi⟩ := Prod.Lex.toLex_le_toLex.mp hkey
      · exact .inl (lt_of_le_of_lt hle hlt)
      · obtain hlt | heq'' := lt_or_eq_of_le (hle.trans heq'.le)
        · exact .inl hlt
        · exact .inr ⟨heq'', hhi⟩
    refine .inr ⟨x, hxmem, chain, hchain, hlast, hmost, hfront.symm, ?_⟩
    rintro y hy ⟨chain', hchain', hr', hmost'⟩
    obtain ⟨hwork, hhi⟩ := hmost.unique hmost' hchain hlast hchain' hr'
    obtain ⟨w', hw', hle⟩ := h.work_le hchain' hr' y hy rfl
    refine ((hfirst y w' hw').resolve_left ?_).2
    refine not_lt.mpr (Prod.Lex.toLex_le_toLex.mpr ?_)
    obtain hlt | heq' := lt_or_eq_of_le (hwork.trans_le hle)
    · exact .inl hlt
    · exact .inr ⟨heq', hhi.le⟩

/-- **The frontier is the most-work genesis chain**, at its highest, and nothing where there is no
    chain from genesis. Nothing is asked of the table but that no range ends before it begins. -/
theorem frontier_most_work (h : WellFormed table) :
    (frontierChain table = .empty ↔ ∀ chain, ¬ Chain (ranges table) chain) ∧
    ((∃ chain, Chain (ranges table) chain) → ∃ chain r, Chain (ranges table) chain ∧ r ∈ chain.getLast? ∧
      frontierChain table = r.frontier (work chain) ∧ Most (ranges table) chain r) := by
  obtain ⟨hempty, hnone⟩ | ⟨x, -, chain, hchain, hlast, hmost, hfrontier, -⟩ := h.frontierChain_cases
  · refine ⟨⟨fun _ => hnone, fun _ => hempty⟩, ?_⟩
    rintro ⟨chain, hchain⟩
    exact absurd hchain (hnone chain)
  · refine ⟨⟨fun hempty => ?_, fun hnone => absurd hchain (hnone chain)⟩,
      fun _ => ⟨chain, x.toVRange, hchain, hlast, hfrontier, hmost⟩⟩
    have hhi : x.hi = 0 := congrArg Frontier.hi (hfrontier.symm.trans hempty)
    exact absurd (h.hi_pos hchain hlast) (hhi.symm ▸ lt_irrefl 0)

/-- A chain has every block up to its end in one of its ranges: the heights of a seam meet. -/
theorem Chain.covers (hchain : Chain S chain) (hr : r ∈ chain.getLast?) :
    ∀ n, 1 ≤ n → n ≤ r.hi → ∃ x ∈ chain, x.lo ≤ n ∧ n ≤ x.hi := by
  induction chain using List.reverseRecOn generalizing r with
  | nil => cases hr
  | append_singleton front last ih =>
    obtain rfl : last = r := by simpa using hr
    intro n hn hhi
    have hlast : last ∈ front ++ [last] := List.mem_append_right _ (List.mem_singleton_self _)
    obtain ⟨heq, -, hanchored⟩ | ⟨front', c, heq, hfront, hc, -, -, -, hadjacent⟩ :=
      (isPath_iff_chain.mpr hchain).cases_last hr
    · exact ⟨last, hlast, hanchored.2.trans_le hn, hhi⟩
    · obtain ⟨rfl, -⟩ := List.append_inj' heq rfl
      by_cases hle : n ≤ c.hi
      · obtain ⟨x, hx, hcov⟩ := ih (isPath_iff_chain.mp hfront) hc n hn hle
        exact ⟨x, List.mem_append_left _ hx, hcov⟩
      · exact ⟨last, hlast, hadjacent ▸ not_le.mp hle, hhi⟩

/-- Every block up to the frontier is in a row. -/
theorem WellFormed.covered (h : WellFormed table) {n : ℕ} (hn : 1 ≤ n)
    (hle : n ≤ (frontierChain table).hi) : ∃ x ∈ table, x.lo ≤ n ∧ n ≤ x.hi := by
  obtain ⟨hempty, -⟩ | ⟨x, -, chain, hchain, hlast, -, hfrontier, -⟩ := h.frontierChain_cases
  · rw [hempty] at hle
    exact absurd hn (Nat.not_le.mpr (Nat.lt_succ_of_le hle))
  · rw [hfrontier] at hle
    obtain ⟨r, hr, hcov⟩ := hchain.covers hlast n hn hle
    obtain ⟨x, hx, rfl⟩ := hchain.mem r hr
    exact ⟨x, hx, hcov⟩

/-! ## Two blocks at height 1 -/

def sampleDigest (n : UInt8) : Bytes32 := .replicate 32 n

/-- A block at height 1 that ends at `tip`, recorded as `id` at `ts`. -/
def firstBlock (tip : UInt8) (id : String) (ts : ℚ) : VRow where
  lo := 1
  hi := 1
  inTip := GENESIS_TIP
  outTip := sampleDigest tip
  inBhash := some (sampleDigest 0)
  outBhash := some (sampleDigest tip)
  rangeWork := 4295032833
  outLeaves := some 1
  id := id
  pubkey := ""
  handle := ""
  ts := ts

/-- The same two blocks, of the same work, recorded in one order and in the other. -/
def forks : List VRow := [firstBlock 1 "1" 0, firstBlock 2 "01" 1]
def forksSwapped : List VRow := [firstBlock 1 "1" 1, firstBlock 2 "01" 0]

theorem wellFormed_forks : WellFormed forks := by
  intro r hr
  obtain rfl | rfl : r = firstBlock 1 "1" 0 ∨ r = firstBlock 2 "01" 1 := by simpa [forks] using hr
  · exact le_refl 1
  · exact le_refl 1

theorem ranges_forksSwapped : ranges forksSwapped = ranges forks := by
  simp [ranges, forks, forksSwapped, firstBlock]

theorem frontierChain_forks : frontierChain forks = ⟨1, sampleDigest 1, 4295032833, 1⟩ ∧
    frontierChain forksSwapped = ⟨1, sampleDigest 2, 4295032833, 1⟩ := by
  constructor <;> decide +kernel

/-- The frontier of the two is a block at height 1. -/
theorem frontier_most_work_forks : ∃ chain r, Chain (ranges forks) chain ∧ r ∈ chain.getLast? ∧
    frontierChain forks = r.frontier (work chain) ∧ Most (ranges forks) chain r := by
  refine (frontier_most_work wellFormed_forks).2 ?_
  by_contra hnone
  have hempty := (frontier_most_work wellFormed_forks).1.mpr fun chain hchain => hnone ⟨chain, hchain⟩
  rw [frontierChain_forks.1] at hempty
  exact absurd (congrArg Frontier.hi hempty) (by decide)

/-! ## The frontier as a function of the set of ranges -/

/-- The ranges that top the set from the lowest start leave the same tip and leaf count. -/
def Decided (S : Set VRange) : Prop :=
  ∀ a b, Tops S a → Tops S b → (∀ c, Tops S c → a.lo ≤ c.lo) → (∀ c, Tops S c → b.lo ≤ c.lo) →
    a.outTip = b.outTip ∧ a.outLeaves.getD 0 = b.outLeaves.getD 0

/-- The table with `a` recorded before all else. -/
def recordedFirst (a : VRange) (table : List VRow) : List VRow :=
  table.map fun x => { x with ts := if x.toVRange = a then 0 else 1 }

theorem map_id_recordedFirst (a : VRange) :
    (recordedFirst a table).map VRow.id = table.map VRow.id := by
  rw [recordedFirst, List.map_map]
  rfl

theorem ranges_recordedFirst (a : VRange) : ranges (recordedFirst a table) = ranges table := by
  ext r
  constructor
  · rintro ⟨x, hx, rfl⟩
    obtain ⟨y, hy, rfl⟩ := List.mem_map.mp hx
    exact ⟨y, hy, rfl⟩
  · rintro ⟨y, hy, rfl⟩
    exact ⟨_, List.mem_map_of_mem hy, rfl⟩

theorem WellFormed.congr {table' : List VRow} (h : WellFormed table)
    (hranges : ranges table' = ranges table) : WellFormed table' := by
  intro x hx
  obtain ⟨y, hy, hxy⟩ : x.toVRange ∈ ranges table := hranges ▸ ⟨x, hx, rfl⟩
  rw [← hxy]
  exact h y hy

/-- Where the sets are decided, so is the frontier: whichever of the top ranges is visited first, it
    shows the same. -/
theorem Decided.frontierChain_eq {table' : List VRow} (hdecided : Decided (ranges table))
    (h : WellFormed table) (hranges : ranges table' = ranges table) :
    frontierChain table' = frontierChain table := by
  obtain ⟨hempty, hnone⟩ | ⟨x, hx, chain, hchain, hlast, hmost, hfrontier, hfirst⟩ :=
    h.frontierChain_cases
  · obtain ⟨hempty', -⟩ | ⟨-, -, chain, hchain, -⟩ := (h.congr hranges).frontierChain_cases
    · rw [hempty, hempty']
    · exact absurd (hranges ▸ hchain) (hnone chain)
  · obtain ⟨-, hnone⟩ | ⟨x', hx', chain', hchain', hlast', hmost', hfrontier', hfirst'⟩ :=
      (h.congr hranges).frontierChain_cases
    · exact absurd (hranges.symm ▸ hchain) (hnone chain)
    · rw [hranges] at hchain' hmost'
      obtain ⟨hwork, hhi⟩ := hmost.unique hmost' hchain hlast hchain' hlast'
      have hlow : ∀ c, Tops (ranges table) c → x.lo ≤ c.lo := by
        intro c hc
        obtain ⟨y, hy, rfl⟩ := hc.exists_row
        exact lo_le_of_order (hfirst y hy hc)
      have hlow' : ∀ c, Tops (ranges table) c → x'.lo ≤ c.lo := by
        intro c hc
        rw [← hranges] at hc
        obtain ⟨y, hy, rfl⟩ := hc.exists_row
        exact lo_le_of_order (hfirst' y hy hc)
      obtain ⟨htip, hleaves⟩ := hdecided x.toVRange x'.toVRange ⟨chain, hchain, hlast, hmost⟩
        ⟨chain', hchain', hlast', hmost'⟩ hlow hlow'
      rw [hfrontier, hfrontier', VRange.frontier, VRange.frontier, hwork, hhi, htip, hleaves]

/-- A range that tops the set from the lowest start is the frontier where it was recorded first. -/
theorem frontierChain_recordedFirst {a : VRange} (h : WellFormed table)
    (ha : Tops (ranges table) a) (hlow : ∀ c, Tops (ranges table) c → a.lo ≤ c.lo) :
    ∃ w, frontierChain (recordedFirst a table) = a.frontier w := by
  have hranges : ranges (recordedFirst a table) = ranges table := ranges_recordedFirst a
  obtain ⟨-, hnone⟩ | ⟨x, hx, chain, hchain, hlast, hmost, hfrontier, hfirst⟩ :=
    (h.congr hranges).frontierChain_cases
  · obtain ⟨chain, hchain, -⟩ := ha
    exact absurd (hranges.symm ▸ hchain) (hnone chain)
  · rw [hranges] at hchain hmost
    have hxa : a.lo ≤ x.lo := hlow x.toVRange ⟨chain, hchain, hlast, hmost⟩
    obtain ⟨y, hy, hya⟩ := ha.exists_row
    have hya' : toLex (x.lo, x.ts) ≤ toLex (a.lo, (0 : WithBot ℚ)) := by
      have := hfirst { y with ts := if y.toVRange = a then 0 else 1 } (List.mem_map_of_mem hy)
        (by rw [hranges]; exact hya.symm ▸ ha)
      rw [if_pos hya] at this
      exact hya ▸ this
    obtain ⟨z, hz, rfl⟩ := List.mem_map.mp hx
    obtain hlt | ⟨-, hts⟩ := Prod.Lex.toLex_le_toLex.mp hya'
    · exact absurd hxa (not_le.mpr hlt)
    · by_cases hza : z.toVRange = a
      · exact ⟨work chain, hza ▸ hfrontier⟩
      · simp only [hza, if_false] at hts
        exact absurd hts (by decide)

/-- **The frontier is a function of the set of verified ranges** exactly where the set decides
between the forks it has of the most work: all tables of the set, in whatever order they were
recorded and with whatever times, have one frontier. -/
theorem frontier_of_ranges_iff (h : WellFormed table) (hids : (table.map VRow.id).Nodup) :
    (∀ t t' : List VRow, (t.map VRow.id).Nodup → (t'.map VRow.id).Nodup →
      ranges t = ranges table → ranges t' = ranges table → frontierChain t = frontierChain t') ↔
      Decided (ranges table) := by
  constructor
  · intro hsame a b ha hb hlow hlow'
    obtain ⟨w, hw⟩ := frontierChain_recordedFirst h ha hlow
    obtain ⟨w', hw'⟩ := frontierChain_recordedFirst h hb hlow'
    have heq := hsame (recordedFirst a table) (recordedFirst b table)
      (by rw [map_id_recordedFirst]; exact hids) (by rw [map_id_recordedFirst]; exact hids)
      (ranges_recordedFirst a) (ranges_recordedFirst b)
    rw [hw, hw'] at heq
    exact ⟨congrArg Frontier.tipHash heq, congrArg Frontier.leaves heq⟩
  · intro hdecided t t' _ _ ht ht'
    rw [hdecided.frontierChain_eq h ht, hdecided.frontierChain_eq h ht']

/-- Which of two blocks at height 1 was recorded first is not decided by the set. -/
theorem forks_not_decided : ¬ Decided (ranges forks) := by
  intro hdecided
  have heq := (frontier_of_ranges_iff wellFormed_forks (by decide)).mpr hdecided forks forksSwapped
    (by decide) (by decide) rfl ranges_forksSwapped
  rw [frontierChain_forks.1, frontierChain_forks.2] at heq
  exact absurd heq (by decide)

/-- Two coordinators with the same two ranges and two frontiers. -/
theorem forks_disagree : ranges forks = ranges forksSwapped ∧ (forks.map VRow.id).Nodup ∧
    (forksSwapped.map VRow.id).Nodup ∧ frontierChain forks ≠ frontierChain forksSwapped := by
  refine ⟨ranges_forksSwapped.symm, by decide, by decide, ?_⟩
  rw [frontierChain_forks.1, frontierChain_forks.2]
  decide

end Coordinator
end Hazync
