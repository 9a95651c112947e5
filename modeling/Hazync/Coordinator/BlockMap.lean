import Hazync.Coordinator.Frontier
import Hazync.Lib.Stretches

/-!
# The block map (`block_status`, `_proven_in`, `coordinator/server.py`)

The furthest state of every block, painted on a byte array and put as runs: the proofs first, the
folds over them, and the spine over both. A sponsorship reads off the runs how many of its blocks
are proven.

## Painting and reading

The array has a byte for each block up to the highest that anything is known of, and later paint
covers earlier. So the byte of a block is the code of the last kind that covers it
(`statusBytes_get`), and `statusAt` says the same without an array. The runs are then a reading of
the array, by the general walk of `Hazync.Lib.Stretches`; that they are maximal and in order is
proved there.

Nothing is asked of the rows: they may overlap, be listed twice, begin at 0 or lie above the tip.
The map of one prover has no spine and no folds in it; its runs are over his own rows.
-/

namespace Hazync
namespace Coordinator

open Stretches

/-- `st[a:b] = xs` -/
def setSlice (st : List ℕ) (a b : ℕ) (xs : List ℕ) : List ℕ := st.take a ++ xs ++ st.drop b

def paintRow (code : ℕ) (st : List ℕ) (r : VRow) : List ℕ :=
  let lo := max 1 r.lo
  if lo ≤ r.hi then setSlice st lo (r.hi + 1) (List.replicate (r.hi + 1 - lo) code) else st

/-- The rows of one kind, painted in one code. -/
def paint (folds : List String) (rows : List VRow) (st : List ℕ) (kind : Bool × ℕ) : List ℕ :=
  rows.foldl (fun st r => if decide (r.id ∈ folds) = kind.1 then paintRow kind.2 st r else st) st

/-- The byte array: a fold outranks a proof, and the spine outranks both. `whole` is whether the map
is of all provers. -/
def statusBytes (tip spineHi : ℕ) (folds : List String) (rows : List VRow) (whole : Bool) :
    List ℕ :=
  let top := (rows.map fun r => r.hi).foldl max (max tip spineHi)
  let st := List.replicate (top + 1) 0
  let st := paint folds rows st (false, 3)
  let st := paint folds rows st (true, 4)
  if whole ∧ spineHi ≠ 0 then setSlice st 1 (spineHi + 1) (List.replicate spineHi 5) else st

structure BlockStatus where
  tip : ℕ
  spineHi : ℕ
  frontier : ℕ
  prover : Option String
  runs : List (Stretch ℕ)

/-- `block_status`. `folds` are the ids of `fold_ids_cached`, and `blk` the keys on the moderation
list. -/
def blockStatus (tip spineHi frontier : ℕ) (folds blk : List String) (vranges : List VRow)
    (prover : Option String) : BlockStatus :=
  let rows := match prover with
    | none => vranges
    | some name => vranges.filter fun r =>
      r.handle = name ∧ r.pubkey.toLower ∉ blk ∧ r.id ∉ folds
  ⟨tip, spineHi, frontier, prover, stretches 0 (statusBytes tip spineHi folds rows prover.isNone)⟩

/-- `bisect.bisect_left` of an ordered list -/
def bisectLeft (l : List ℕ) (x : ℕ) : ℕ := l.findIdx fun y => x ≤ y

/-- `_proven_in` -/
def provenIn (lo hi : ℕ) (runs : List (Stretch ℕ)) : ℤ :=
  countWithin (3 ≤ ·) lo hi 0 (runs.drop (bisectLeft (runs.map Stretch.hi) lo))

/-! ## What the map should say -/

/-- Some row has the block. -/
def CoveredBy (rows : List VRow) (n : ℕ) : Prop := ∃ r ∈ rows, r.lo ≤ n ∧ n ≤ r.hi

instance (rows : List VRow) (n : ℕ) : Decidable (CoveredBy rows n) :=
  inferInstanceAs (Decidable (∃ r ∈ rows, _))

/-- The furthest state of a block. -/
def statusAt (spineHi : ℕ) (folds : List String) (rows : List VRow) (n : ℕ) : Option ℕ :=
  if n = 0 then none
  else if n ≤ spineHi then some 5
  else if CoveredBy (rows.filter fun r => r.id ∈ folds) n then some 4
  else if CoveredBy rows n then some 3
  else none

/-! ## Painting -/

variable {st : List ℕ} {a b n code : ℕ} {rows vranges : List VRow} {folds blk : List String}
  {kind : Bool × ℕ} {tip spineHi frontier : ℕ}

theorem length_setSlice (hab : a ≤ b) (hb : b ≤ st.length) (code : ℕ) :
    (setSlice st a b (List.replicate (b - a) code)).length = st.length := by
  unfold setSlice
  simp
  omega

/-- Painting a slice paints its places and no others, and the length stays. -/
theorem getElem?_setSlice (hab : a ≤ b) (hb : b ≤ st.length) (code n : ℕ) :
    (setSlice st a b (List.replicate (b - a) code))[n]? =
      if a ≤ n ∧ n < b then some code else st[n]? := by
  unfold setSlice
  rw [List.append_assoc, List.getElem?_append]
  split
  · rename_i hn
    rw [List.length_take] at hn
    rw [if_neg (by omega), List.getElem?_take, if_pos (by omega)]
  · rename_i hn
    rw [List.length_take, min_eq_left (hab.trans hb)] at hn ⊢
    rw [List.getElem?_append, List.length_replicate]
    split
    · rw [if_pos (by omega), List.getElem?_replicate, if_pos (by omega)]
    · rw [if_neg (by omega), List.getElem?_drop]
      congr 1
      omega

/-- What a row paints. -/
theorem paintRow_spec {r : VRow} (hr : r.hi < st.length) (code : ℕ) :
    (paintRow code st r).length = st.length ∧ ∀ n : ℕ, (paintRow code st r)[n]? =
      if 1 ≤ n ∧ r.lo ≤ n ∧ n ≤ r.hi then some code else st[n]? := by
  unfold paintRow
  dsimp only
  split
  · rename_i hle
    have hle' : max 1 r.lo ≤ r.hi + 1 := Nat.le_succ_of_le hle
    refine ⟨length_setSlice hle' hr code, ?_⟩
    intro n
    have hcond : max 1 r.lo ≤ n ∧ n < r.hi + 1 ↔ 1 ≤ n ∧ r.lo ≤ n ∧ n ≤ r.hi := by omega
    rw [getElem?_setSlice hle' hr]
    simp only [hcond]
  · rename_i hempty
    refine ⟨rfl, ?_⟩
    intro n
    rw [if_neg (by omega)]

/-- What the rows of one kind paint: the blocks that one of them covers, by induction on the
    rows. -/
theorem paint_spec (folds : List String) (kind : Bool × ℕ) (hrows : ∀ r ∈ rows, r.hi < st.length) :
    (paint folds rows st kind).length = st.length ∧ ∀ n : ℕ, (paint folds rows st kind)[n]? =
      if 1 ≤ n ∧ CoveredBy (rows.filter fun r => decide (r.id ∈ folds) = kind.1) n
      then some kind.2 else st[n]? := by
  unfold paint
  induction rows generalizing st with
  | nil => simp [CoveredBy]
  | cons r rows ih =>
    rw [List.foldl_cons]
    have hr := hrows r List.mem_cons_self
    have hrest : ∀ x ∈ rows, x.hi < st.length := fun x hx => hrows x (List.mem_cons_of_mem _ hx)
    by_cases hkind : decide (r.id ∈ folds) = kind.1
    · rw [if_pos hkind, List.filter_cons_of_pos (by simpa using hkind)]
      obtain ⟨hlen, hget⟩ := paintRow_spec hr kind.2
      rw [← hlen] at hrest
      obtain ⟨hlen', hget'⟩ := ih hrest
      refine ⟨hlen'.trans hlen, ?_⟩
      intro n
      have hcover : CoveredBy (r :: rows.filter fun r => decide (r.id ∈ folds) = kind.1) n ↔
          CoveredBy (rows.filter fun r => decide (r.id ∈ folds) = kind.1) n ∨
            r.lo ≤ n ∧ n ≤ r.hi := by
        unfold CoveredBy
        rw [List.exists_mem_cons_iff, or_comm]
      rw [hget', hget]
      simp only [hcover, and_or_left, ite_or]
    · rw [if_neg hkind, List.filter_cons_of_neg (by simpa using hkind)]
      exact ih hrest

theorem le_foldl_max (l : List ℕ) (m : ℕ) : m ≤ l.foldl max m ∧ ∀ x ∈ l, x ≤ l.foldl max m := by
  induction l generalizing m with
  | nil => simp
  | cons y l ih =>
    obtain ⟨hfirst, hrest⟩ := ih (max m y)
    refine ⟨(le_max_left m y).trans hfirst, ?_⟩
    intro x hx
    rcases List.mem_cons.mp hx with rfl | hx
    · exact (le_max_right m x).trans hfirst
    · exact hrest x hx

/-- The bytes of the whole map: the spine over the folds, the folds over the proofs, and nothing at
    height 0. -/
theorem statusBytes_get (tip spineHi : ℕ) (folds : List String) (rows : List VRow) :
    ∃ top, ∀ n : ℕ, (statusBytes tip spineHi folds rows true)[n]? =
      if 1 ≤ n ∧ n ≤ spineHi then some 5
      else if 1 ≤ n ∧ CoveredBy (rows.filter fun r => decide (r.id ∈ folds) = true) n then some 4
      else if 1 ≤ n ∧ CoveredBy (rows.filter fun r => decide (r.id ∈ folds) = false) n then some 3
      else (List.replicate (top + 1) 0)[n]? := by
  unfold statusBytes
  dsimp only
  set top := (rows.map fun r => r.hi).foldl max (max tip spineHi) with htop
  obtain ⟨hfirst, hrest⟩ := le_foldl_max (rows.map fun r => r.hi) (max tip spineHi)
  have hspine : spineHi ≤ top := (le_max_right tip spineHi).trans hfirst
  have hrows : ∀ r ∈ rows, r.hi < (List.replicate (top + 1) 0).length := by
    intro r hr
    rw [List.length_replicate]
    exact Nat.lt_succ_of_le (hrest r.hi (List.mem_map_of_mem hr))
  obtain ⟨hlen, hproofs⟩ := paint_spec folds (false, 3) hrows
  rw [← hlen] at hrows
  obtain ⟨hlen', hfolds⟩ := paint_spec folds (true, 4) hrows
  refine ⟨top, ?_⟩
  intro n
  have hbelow : (paint folds rows (paint folds rows (List.replicate (top + 1) 0) (false, 3))
      (true, 4))[n]? =
      if 1 ≤ n ∧ CoveredBy (rows.filter fun r => decide (r.id ∈ folds) = true) n then some 4
      else if 1 ≤ n ∧ CoveredBy (rows.filter fun r => decide (r.id ∈ folds) = false) n then some 3
      else (List.replicate (top + 1) 0)[n]? := by
    rw [hfolds, hproofs]
  split
  · have hreach : spineHi + 1 ≤ (paint folds rows
        (paint folds rows (List.replicate (top + 1) 0) (false, 3)) (true, 4)).length := by
      rw [hlen', hlen, List.length_replicate]
      exact Nat.succ_le_succ hspine
    have hslice := getElem?_setSlice (Nat.le_add_left 1 spineHi) hreach 5 n
    rw [Nat.add_sub_cancel] at hslice
    rw [hslice, hbelow]
    simp only [Nat.lt_succ_iff]
  · rename_i hnone
    have hzero : spineHi = 0 := by simpa using hnone
    rw [hbelow, if_neg (by omega : ¬ (1 ≤ n ∧ n ≤ spineHi))]

theorem coveredBy_filter {q : VRow → Prop} [DecidablePred q] {n : ℕ} :
    CoveredBy (rows.filter fun r => q r) n ↔ ∃ r ∈ rows, q r ∧ r.lo ≤ n ∧ n ≤ r.hi := by
  unfold CoveredBy
  simp [List.mem_filter, and_assoc]

/-- The code on the array is the state of the block, beyond the end of the array as well, where
    there is none. -/
theorem codeAt_statusBytes (tip spineHi : ℕ) (folds : List String) (rows : List VRow) :
    codeAt 0 (statusBytes tip spineHi folds rows true) = statusAt spineHi folds rows := by
  obtain ⟨top, hget⟩ := statusBytes_get tip spineHi folds rows
  funext n
  unfold codeAt statusAt
  rw [hget]
  have hblank : (List.replicate (top + 1) 0)[n]?.filter (· ≠ 0) = none := by
    rw [List.getElem?_replicate]
    split <;> rfl
  by_cases hzero : n = 0
  · rw [if_pos hzero, if_neg (by omega), if_neg (by omega), if_neg (by omega)]
    exact hblank
  have hpos : 1 ≤ n := Nat.one_le_iff_ne_zero.mpr hzero
  have hfolds : CoveredBy (rows.filter fun r => decide (r.id ∈ folds) = true) n ↔
      CoveredBy (rows.filter fun r => r.id ∈ folds) n := by
    rw [coveredBy_filter, coveredBy_filter]
    simp
  rw [if_neg hzero]
  simp only [hpos, true_and, hfolds]
  split
  · rfl
  split
  · rfl
  · rename_i hnofold
    have hproofs : CoveredBy (rows.filter fun r => decide (r.id ∈ folds) = false) n ↔
        CoveredBy rows n := by
      rw [coveredBy_filter]
      unfold CoveredBy
      constructor
      · intro ⟨r, hr, _, hin⟩
        exact ⟨r, hr, hin⟩
      · intro ⟨r, hr, hin⟩
        refine ⟨r, hr, ?_, hin⟩
        apply decide_eq_false
        intro hfold
        exact hnofold (coveredBy_filter.mpr ⟨r, hr, hfold, hin⟩)
    simp only [hproofs]
    split
    · rfl
    · exact hblank

/-! ## The runs -/

/-- A block that the spine or some range has. -/
def Proven (spineHi : ℕ) (rows : List VRow) (n : ℕ) : Prop :=
  1 ≤ n ∧ (n ≤ spineHi ∨ CoveredBy rows n)

instance (spineHi : ℕ) (rows : List VRow) : DecidablePred (Proven spineHi rows) :=
  fun _ => inferInstanceAs (Decidable (_ ∧ _))

/-- The states there are are those of the proven blocks. -/
theorem statusAt_eq_some {c : ℕ} (h : statusAt spineHi folds rows n = some c) :
    3 ≤ c ∧ Proven spineHi rows n := by
  unfold statusAt at h
  split at h
  · cases h
  rename_i hzero
  have hpos : 1 ≤ n := Nat.one_le_iff_ne_zero.mpr hzero
  split at h
  · rename_i hspine
    obtain rfl := Option.some.inj h
    exact ⟨by decide, hpos, .inl hspine⟩
  split at h
  · rename_i hfold
    obtain rfl := Option.some.inj h
    obtain ⟨r, hr, -, hin⟩ := coveredBy_filter.mp hfold
    exact ⟨by decide, hpos, .inr ⟨r, hr, hin⟩⟩
  split at h
  · rename_i hcovered
    obtain rfl := Option.some.inj h
    exact ⟨by decide, hpos, .inr hcovered⟩
  · cases h

theorem statusAt_ne_none (h : Proven spineHi rows n) : statusAt spineHi folds rows n ≠ none := by
  obtain ⟨hpos, hproven⟩ := h
  unfold statusAt
  rw [if_neg (Nat.one_le_iff_ne_zero.mp hpos)]
  split
  · simp
  · rename_i hspine
    split
    · simp
    · rw [if_pos (hproven.resolve_left hspine)]
      simp

/-- Bisecting leaves out the runs that end before the interval: the ends of the runs ascend. -/
theorem drop_bisectLeft (runs : List (Stretch ℕ)) (lo : ℕ) :
    runs.drop (bisectLeft (runs.map Stretch.hi) lo) = runs.dropWhile fun r => r.hi < lo := by
  unfold bisectLeft
  rw [List.findIdx_map, List.dropWhile_eq_drop_findIdx_not]
  congr 2
  funext r
  rw [Bool.eq_iff_iff]
  simp

/-- What is counted over exact runs are the proven blocks of the interval. -/
theorem counted_eq {runs : List (Stretch ℕ)} (h : Exact (statusAt spineHi folds vranges) runs)
    (lo hi : ℕ) : counted (3 ≤ ·) lo hi runs =
      (Finset.Icc lo hi).filter (Proven spineHi vranges) := by
  unfold counted
  apply Finset.filter_congr
  intro x _
  constructor
  · rintro ⟨r, hr, hin, -⟩
    exact (statusAt_eq_some (h.inside r hr x hin)).2
  · intro hproven
    obtain ⟨r, hr, hin⟩ := h.complete x (statusAt_ne_none hproven)
    exact ⟨r, hr, hin, decide_eq_true (statusAt_eq_some (h.inside r hr x hin)).1⟩

/-- The runs say the state of every block, they are in order and as long as they can be, and what
is counted of them in an interval is how many of its blocks are proven. -/
structure RunsSay (spineHi : ℕ) (folds : List String) (vranges : List VRow)
    (runs : List (Stretch ℕ)) : Prop where
  /-- A block has the state that its row, a fold or the spine gives it, and no state where none
      does. -/
  decoded : ∀ n, decode runs n = statusAt spineHi folds vranges n
  /-- The runs come in the order of the blocks, and apart. -/
  increasing : runs.Pairwise fun a b => a.hi < b.lo
  nonempty : ∀ r ∈ runs, r.lo ≤ r.hi
  /-- No run goes on into the next: the block before it and the block after it have another
      state. -/
  maximal : ∀ r ∈ runs, statusAt spineHi folds vranges (r.hi + 1) ≠ some r.code ∧
    ∀ n, n + 1 = r.lo → statusAt spineHi folds vranges n ≠ some r.code
  /-- The share of an interval that is proven is counted over the runs, not over the blocks. -/
  counts : ∀ lo hi, lo ≤ hi + 1 →
    provenIn lo hi runs = ((Finset.Icc lo hi).filter (Proven spineHi vranges)).card

/-- **The runs of the block map are exact**, whatever the rows, the folds and the head of the spine:
they decode to the state of every block, no two of them could be one, and the proven blocks of an
interval are counted from them. -/
theorem blockStatus_exact (tip spineHi frontier : ℕ) (folds blk : List String)
    (vranges : List VRow) : RunsSay spineHi folds vranges
      (blockStatus tip spineHi frontier folds blk vranges none).runs := by
  have hexact : Exact (statusAt spineHi folds vranges)
      (blockStatus tip spineHi frontier folds blk vranges none).runs := by
    rw [← codeAt_statusBytes tip]
    exact stretches_exact 0 _
  refine ⟨hexact.decode_eq, hexact.ordered, hexact.filled, fun r hr => hexact.longest hr, ?_⟩
  intro lo hi hle
  obtain ⟨hsame, hreach⟩ := counted_dropWhile (3 ≤ ·) lo hi hexact.ordered hexact.filled
  have hsub := List.dropWhile_sublist (fun r : Stretch ℕ => decide (r.hi < lo))
    (l := (blockStatus tip spineHi frontier folds blk vranges none).runs)
  unfold provenIn
  rw [drop_bisectLeft, countWithin_eq (hexact.ordered.sublist hsub)
    (fun r hr => hexact.filled r (hsub.subset hr)) hreach hle, hsame, counted_eq hexact, zero_add]

end Coordinator
end Hazync
