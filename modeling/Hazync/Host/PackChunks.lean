import Hazync.Lib.GreedySplit
import Mathlib.Algebra.GroupWithZero.Nat
import Mathlib.Algebra.Order.BigOperators.Group.List
import Mathlib.Algebra.Order.Group.Nat
import Mathlib.Data.List.GetD
import Mathlib.Data.List.MinMax
import Mathlib.Order.Bounds.Basic

/-!
# The chunk packer

`pack_chunks` cuts a block's inputs into contiguous runs, one for each prover. It searches the
least cap under which the greedy cut needs no more runs than there are provers, cuts at that cap,
and halves the widest run until no prover is idle.

Costs are `u64` and sums of them wrap, as in a release build.

## A search over caps

The runs of a block are proved at the same time, each on a card of its own, and the block is done
when the slowest is. So what the packer minimises is the cost of the heaviest run. For a given cap
the greedy cut, which takes inputs into a run for as long as they fit, needs the fewest runs; and a
larger cap never needs more. Hence the least cap for which the greedy cut has at most `k` runs is
the weight of the best cut into `k` runs. It is somewhere between the dearest input and the sum of
all, and is found by bisection.

All this is about weights of intervals in general, and is in `GreedySplit`. What is proved here is
that the loops of the source walk as that greedy cut does (`Walks`). The loop that counts and the
loop that cuts are two functions in the source. They differ in one thing, whether a run that is
empty can be cut, and agree from the cap of the dearest input on, which is where the search starts.

If there are fewer runs than provers at the end, the widest run is halved for as long as there is
one with two inputs. This makes no run heavier where the weight of a part is at most that of the
whole, and so keeps the minimum. With keys this can fail; `PackKeyed` says when.
-/

namespace Hazync
namespace Host

open GreedySplit

/-- `a + b` on `u64`. -/
def add64 (a b : ℕ) : ℕ := (a + b) % 2 ^ 64

/-! ## Without keys -/

/-- Where `runs_at_cap` stands: the runs so far and the cost of the last. -/
def runsStep (cap : ℕ) (s : ℕ × ℕ) (c : ℕ) : ℕ × ℕ :=
  if add64 s.2 c > cap then (s.1 + 1, c) else (s.1, add64 s.2 c)

def runsAtCap (costs : List ℕ) (cap : ℕ) : ℕ := (costs.foldl (runsStep cap) (1, 0)).1

/-- Where `split_at_cap` stands. -/
structure Splitter where
  out : List (ℕ × ℕ)
  lo : ℕ
  acc : ℕ
deriving DecidableEq, Repr

def splitStep (cap : ℕ) (s : Splitter) (x : ℕ × ℕ) : Splitter :=
  if add64 s.acc x.1 > cap ∧ x.2 > s.lo then ⟨s.out ++ [(s.lo, x.2)], x.2, x.1⟩
  else { s with acc := add64 s.acc x.1 }

/-- Split `costs` into contiguous runs, each within `cap`. -/
def splitAtCap (costs : List ℕ) (cap : ℕ) : List (ℕ × ℕ) :=
  let s := costs.zipIdx.foldl (splitStep cap) ⟨[], 0, 0⟩
  s.out ++ [(s.lo, costs.length)]

/-! ## With keys -/

variable {κ : Type*} [DecidableEq κ]

/-- What a run costs depends on the keys decompressed earlier in it: `seen`. There is a saving and a
key for each input, so nothing is read past the end of a list, where the source would panic. -/
structure KeyWalk (κ : Type*) where
  costs : List ℕ
  savings : List ℕ
  keys : List (Option κ)
  seen : List κ

namespace KeyWalk

def new (costs savings : List ℕ) (keys : List (Option κ)) : KeyWalk κ := ⟨costs, savings, keys, []⟩

/-- The cost of input `i` in the current run, its key seen from now on. -/
def take (w : KeyWalk κ) (i : ℕ) : ℕ × KeyWalk κ :=
  let c := w.costs.getD i 0
  match w.keys[i]?.join with
  | some k =>
    if k ∈ w.seen then (c - w.savings.getD i 0, w) else (c, { w with seen := k :: w.seen })
  | none => (c, w)

/-- The cost of input `i` where it opens a run. -/
def takeFresh (w : KeyWalk κ) (i : ℕ) : ℕ × KeyWalk κ :=
  let w := { w with seen := [] }
  match w.keys[i]?.join with
  | some k => (w.costs.getD i 0, { w with seen := k :: w.seen })
  | none => (w.costs.getD i 0, w)

end KeyWalk

/-- Where `runs_at_cap_keyed` stands. -/
structure KeyedRuns (κ : Type*) where
  walk : KeyWalk κ
  runs : ℕ
  acc : ℕ

def runsStepKeyed (cap : ℕ) (s : KeyedRuns κ) (i : ℕ) : KeyedRuns κ :=
  let (c, w) := s.walk.take i
  if add64 s.acc c > cap then
    let (c, w) := w.takeFresh i
    ⟨w, s.runs + 1, c⟩
  else ⟨w, s.runs, add64 s.acc c⟩

def runsAtCapKeyed (costs savings : List ℕ) (keys : List (Option κ)) (cap : ℕ) : ℕ :=
  ((List.range costs.length).foldl (runsStepKeyed cap) ⟨.new costs savings keys, 1, 0⟩).runs

/-- Where `split_at_cap_keyed` stands. -/
structure KeyedSplitter (κ : Type*) where
  walk : KeyWalk κ
  out : List (ℕ × ℕ)
  lo : ℕ
  acc : ℕ

def splitStepKeyed (cap : ℕ) (s : KeyedSplitter κ) (i : ℕ) : KeyedSplitter κ :=
  let (c, w) := s.walk.take i
  if add64 s.acc c > cap ∧ i > s.lo then
    let (c, w) := w.takeFresh i
    ⟨w, s.out ++ [(s.lo, i)], i, c⟩
  else ⟨w, s.out, s.lo, add64 s.acc c⟩

def splitAtCapKeyed (costs savings : List ℕ) (keys : List (Option κ)) (cap : ℕ) : List (ℕ × ℕ) :=
  let s := (List.range costs.length).foldl (splitStepKeyed cap) ⟨.new costs savings keys, [], 0, 0⟩
  s.out ++ [(s.lo, costs.length)]

/-! ## `pack_chunks` -/

/-- The binary search for the least cap that needs at most `k` runs. Each turn shortens the
interval, so as many turns as it is long are enough. -/
def capSearch (runsAt : ℕ → ℕ) (k : ℕ) : ℕ → ℕ → ℕ → ℕ
  | 0, lo, _ => lo
  | turns + 1, lo, hi =>
    if lo < hi then
      let mid := lo + (hi - lo) / 2
      if runsAt mid ≤ k then capSearch runsAt k turns lo mid
      else capSearch runsAt k turns (mid + 1) hi
    else lo

def width (r : ℕ × ℕ) : ℕ := r.2 - r.1

/-- `max_by_key` takes the last of several widest runs. -/
def widest (runs : List (ℕ × ℕ)) : Option ℕ :=
  (List.range runs.length).reverse.argmax fun i => width (runs.getD i (0, 0))

/-- `while runs.len() < k`, which gives one of the idle provers a run at each turn. -/
def fillIdle : ℕ → List (ℕ × ℕ) → List (ℕ × ℕ)
  | 0, runs => runs
  | idle + 1, runs =>
    match widest runs with
    | none => runs
    | some w =>
      let r := runs.getD w (0, 0)
      if width r < 2 then runs
      else
        let mid := r.1 + width r / 2
        fillIdle idle ((runs.set w (r.1, mid)).insertIdx (w + 1) (mid, r.2))

/-- The savings and the keys of the inputs, where the packer prices repeated keys. -/
abbrev Keyed (κ : Type*) := Option (List ℕ × List (Option κ))

def runsAt (costs : List ℕ) : Keyed κ → ℕ → ℕ
  | some (savings, keys) => runsAtCapKeyed costs savings keys
  | none => runsAtCap costs

def splitAt (costs : List ℕ) : Keyed κ → ℕ → List (ℕ × ℕ)
  | some (savings, keys) => splitAtCapKeyed costs savings keys
  | none => splitAtCap costs

/-- The cap the search ends at. -/
def packedCap (costs : List ℕ) (k : ℕ) (keys : Keyed κ) : ℕ :=
  let lo := costs.max?.getD 1
  let hi := costs.foldl add64 0
  capSearch (runsAt costs keys) k (hi - lo) lo hi

/-- The runs at that cap, before the idle provers get theirs. -/
def packAtCap (costs : List ℕ) (k : ℕ) (keys : Keyed κ) : List (ℕ × ℕ) :=
  splitAt costs keys (packedCap costs k keys)

def packChunks (costs : List ℕ) (nchunks : ℕ) (keys : Keyed κ) : List (ℕ × ℕ) :=
  let n := costs.length
  if n = 0 then []
  else
    let k := min (max nchunks 1) n
    if k = 1 then [(0, n)]
    else
      let runs := packAtCap costs k keys
      fillIdle (k - runs.length) runs

/-! ## Filling the idle provers -/

/-- The widest run is one of them. -/
theorem widest_lt {runs : List (ℕ × ℕ)} {i : ℕ} (h : widest runs = some i) : i < runs.length := by
  have hi := List.argmax_mem h
  rwa [List.mem_reverse, List.mem_range] at hi

/-- No run is wider. -/
theorem width_le_widest {runs : List (ℕ × ℕ)} {i : ℕ} (h : widest runs = some i) {r : ℕ × ℕ}
    (hr : r ∈ runs) : width r ≤ width (runs.getD i (0, 0)) := by
  obtain ⟨j, hj, rfl⟩ := List.getElem_of_mem hr
  have hmem : j ∈ (List.range runs.length).reverse := by simpa using hj
  have hle := List.le_of_mem_argmax hmem h
  rwa [List.getD_eq_getElem _ _ hj] at hle

/-- There is a widest run unless there is none. -/
theorem widest_eq_none {runs : List (ℕ × ℕ)} : widest runs = none ↔ runs = [] := by
  simp [widest, List.argmax_eq_none]

/-- The two assignments of a turn put the halves in the place of the run. -/
theorem set_insertIdx {α : Type*} (xs ys : List α) (r x y : α) :
    ((xs ++ r :: ys).set xs.length x).insertIdx (xs.length + 1) y = xs ++ x :: y :: ys := by
  induction xs with
  | nil => rfl
  | cons z xs ih =>
    simp only [List.cons_append, List.length_cons, List.set_cons_succ, List.insertIdx_succ_cons, ih]

/-- A turn divides a run in two, or nothing is wide enough. -/
theorem fillIdle_succ (idle : ℕ) (runs : List (ℕ × ℕ)) :
    ((∀ r ∈ runs, width r < 2) ∧ fillIdle (idle + 1) runs = runs) ∨
      ∃ xs ys a m b, runs = xs ++ (a, b) :: ys ∧ a < m ∧ m < b ∧
        fillIdle (idle + 1) runs = fillIdle idle (xs ++ (a, m) :: (m, b) :: ys) := by
  rw [fillIdle]
  cases hw : widest runs with
  | none =>
    obtain rfl := widest_eq_none.mp hw
    exact .inl ⟨by simp, rfl⟩
  | some w =>
    have hlt := widest_lt hw
    have hmax := fun r hr => width_le_widest hw (r := r) hr
    rw [List.getD_eq_getElem _ _ hlt] at hmax
    simp only [List.getD_eq_getElem _ _ hlt]
    by_cases hwide : width runs[w] < 2
    · exact .inl ⟨fun r hr => (hmax r hr).trans_lt hwide, if_pos hwide⟩
    · refine .inr ⟨runs.take w, runs.drop (w + 1), runs[w].1, runs[w].1 + width runs[w] / 2,
        runs[w].2, ?_, ?_, ?_, ?_⟩
      · rw [Prod.mk.eta, List.getElem_cons_drop, List.take_append_drop]
      · rw [width] at hwide ⊢
        omega
      · rw [width] at hwide ⊢
        omega
      · rw [if_neg hwide]
        have hsplit := set_insertIdx (runs.take w) (runs.drop (w + 1)) runs[w]
          (runs[w].1, runs[w].1 + width runs[w] / 2) (runs[w].1 + width runs[w] / 2, runs[w].2)
        rw [List.getElem_cons_drop, List.take_append_drop, List.length_take_of_le hlt.le] at hsplit
        rw [hsplit]

/-- What dividing a run in two keeps, filling keeps. -/
theorem fillIdle_keeps {P : List (ℕ × ℕ) → Prop}
    (hdiv : ∀ xs ys a m b, P (xs ++ (a, b) :: ys) → a < m → m < b →
      P (xs ++ (a, m) :: (m, b) :: ys))
    (idle : ℕ) {runs : List (ℕ × ℕ)} (h : P runs) : P (fillIdle idle runs) := by
  induction idle generalizing runs with
  | zero => exact h
  | succ idle ih =>
    rcases fillIdle_succ idle runs with ⟨-, heq⟩ | ⟨xs, ys, a, m, b, rfl, ham, hmb, heq⟩
    · rwa [heq]
    · rw [heq]
      exact ih (hdiv xs ys a m b h ham hmb)

/-- Filling keeps the cover. -/
theorem fillIdle_covers {runs : List (ℕ × ℕ)} {n : ℕ} (h : Covers 0 runs n) (idle : ℕ) :
    Covers 0 (fillIdle idle runs) n :=
  fillIdle_keeps (P := fun rs => Covers 0 rs n) (fun _ _ _ _ _ hc ham hmb => hc.divide ham hmb)
    idle h

/-- As long as there is an input for each, every idle prover gets a run. -/
theorem fillIdle_length {runs : List (ℕ × ℕ)} {n idle : ℕ} (h : Covers 0 runs n)
    (hn : runs.length + idle ≤ n) : (fillIdle idle runs).length = runs.length + idle := by
  induction idle generalizing runs with
  | zero => rfl
  | succ idle ih =>
    rcases fillIdle_succ idle runs with ⟨hw, -⟩ | ⟨xs, ys, a, m, b, rfl, ham, hmb, heq⟩
    · have := h.length_eq hw
      omega
    · have hlen : (xs ++ (a, m) :: (m, b) :: ys).length = (xs ++ (a, b) :: ys).length + 1 := by
        simp only [List.length_append, List.length_cons]
        omega
      rw [heq, ih (h.divide ham hmb) (by omega), hlen]
      omega

/-- Where the weights are steady, filling makes nothing heavier. -/
theorem fillIdle_heaviest {w : ℕ → ℕ → ℕ} {floor n cap : ℕ} (hs : Steady w floor n)
    (hc : floor ≤ cap) {runs : List (ℕ × ℕ)} (h : Covers 0 runs n) (hw : heaviest w runs ≤ cap)
    (idle : ℕ) : heaviest w (fillIdle idle runs) ≤ cap := by
  have hkeep := fillIdle_keeps (P := fun rs => Covers 0 rs n ∧ heaviest w rs ≤ cap)
    (fun xs ys a m b hP ham hmb => ?_) idle ⟨h, hw⟩
  · exact hkeep.2
  · have hb := (hP.1.bounds (r := (a, b)) (by simp)).2.2
    exact ⟨hP.1.divide ham hmb, heaviest_divide hs ham hmb hb hP.2 hc⟩

/-! ## The search -/

section Search

variable {runs : ℕ → ℕ} {k floor : ℕ}

/-- The search ends at a cap that needs at most `k` runs. -/
theorem capSearch_feasible {turns lo hi : ℕ} (hturns : hi - lo ≤ turns) (hle : lo ≤ hi)
    (hhi : runs hi ≤ k) :
    lo ≤ capSearch runs k turns lo hi ∧ runs (capSearch runs k turns lo hi) ≤ k := by
  induction turns generalizing lo hi with
  | zero =>
    obtain rfl : lo = hi := by omega
    exact ⟨le_rfl, hhi⟩
  | succ turns ih =>
    rw [capSearch]
    by_cases hlt : lo < hi
    · by_cases hmid : runs (lo + (hi - lo) / 2) ≤ k
      · simp only [if_pos hlt, if_pos hmid]
        exact ih (by omega) (by omega) hmid
      · simp only [if_pos hlt, if_neg hmid]
        have hle' : lo + (hi - lo) / 2 + 1 ≤ hi := by omega
        have h := ih (by omega) hle' hhi
        exact ⟨by omega, h.2⟩
    · rw [if_neg hlt]
      obtain rfl : lo = hi := by omega
      exact ⟨le_rfl, hhi⟩

/-- Where more cap needs no more runs, it is the least such cap. -/
theorem capSearch_least (hmono : ∀ c c', floor ≤ c → c ≤ c' → runs c' ≤ runs c)
    {turns lo hi : ℕ} (hfloor : floor ≤ lo) (hle : lo ≤ hi) {c : ℕ} (hc : lo ≤ c)
    (hck : runs c ≤ k) : capSearch runs k turns lo hi ≤ c := by
  induction turns generalizing lo hi with
  | zero => exact hc
  | succ turns ih =>
    rw [capSearch]
    by_cases hlt : lo < hi
    · by_cases hmid : runs (lo + (hi - lo) / 2) ≤ k
      · simp only [if_pos hlt, if_pos hmid]
        exact ih hfloor (by omega) hc
      · simp only [if_pos hlt, if_neg hmid]
        refine ih (by omega) (by omega) ?_
        -- at the middle or below, the runs are too many
        by_contra hcm
        exact hmid ((hmono c _ (hfloor.trans hc) (by omega)).trans hck)
    · rwa [if_neg hlt]

end Search

/-! ## The packed runs -/

/-- The greedy walks of the packer are the greedy cut for the weights `w`: the one that cuts at
every cap, the one that counts from the dearest input on. -/
structure Walks (w : ℕ → ℕ → ℕ) (costs : List ℕ) (keys : Keyed κ) : Prop where
  /-- An input alone fits under the smallest cap that is tried. -/
  single : ∀ i < costs.length, w i (i + 1) ≤ costs.max?.getD 1
  /-- And all of them under the largest. -/
  whole : ∀ i ≤ costs.length, w 0 i ≤ costs.foldl add64 0
  dearest_le : 0 < costs.length → costs.max?.getD 1 ≤ costs.foldl add64 0
  /-- Counting the runs is counting the greedy cut's. -/
  runsAt_eq : ∀ cap, costs.max?.getD 1 ≤ cap →
    runsAt costs keys cap = (greedy w cap costs.length).length
  /-- And making them is making its. -/
  splitAt_eq : ∀ cap, splitAt costs keys cap = greedy w cap costs.length

/-- No input costs more than the dearest. -/
theorem le_dearest {costs : List ℕ} {i : ℕ} (hi : i < costs.length) :
    costs[i] ≤ costs.max?.getD 1 := List.le_max?_getD_of_mem (List.getElem_mem hi)

section Packed

variable {w : ℕ → ℕ → ℕ} {costs : List ℕ} {keys : Keyed κ} {k nchunks : ℕ}

/-- The cap that is found needs at most as many runs as there are provers, and any input fits in
    it. -/
theorem packedCap_feasible (hw : Walks w costs keys) (hn : 0 < costs.length) (hk : 0 < k) :
    costs.max?.getD 1 ≤ packedCap costs k keys ∧ (packAtCap costs k keys).length ≤ k := by
  have hone : runsAt costs keys (costs.foldl add64 0) ≤ k := by
    rw [hw.runsAt_eq _ (hw.dearest_le hn), greedy_whole hw.whole]
    exact hk
  have hcap : costs.max?.getD 1 ≤ packedCap costs k keys ∧
      runsAt costs keys (packedCap costs k keys) ≤ k :=
    capSearch_feasible le_rfl (hw.dearest_le hn) hone
  rw [packAtCap, hw.splitAt_eq, ← hw.runsAt_eq _ hcap.1]
  exact hcap

/-- The runs at that cap cover the inputs. -/
theorem packAtCap_covers (hw : Walks w costs keys) (hn : 0 < costs.length) :
    Covers 0 (packAtCap costs k keys) costs.length := by
  rw [packAtCap, hw.splitAt_eq]
  exact greedy_covers hn

/-- Where the weights are steady, no cut that reaches the cost of the dearest input is lighter than
the cap. -/
theorem packedCap_least (hw : Walks w costs keys) (hs : Steady w (costs.max?.getD 1) costs.length)
    (hn : 0 < costs.length) {rs : List (ℕ × ℕ)} (hrs : Covers 0 rs costs.length)
    (hlen : rs.length ≤ k) (hheavy : costs.max?.getD 1 ≤ heaviest w rs) :
    packedCap costs k keys ≤ heaviest w rs := by
  have hmono : ∀ c c', costs.max?.getD 1 ≤ c → c ≤ c' →
      runsAt costs keys c' ≤ runsAt costs keys c := by
    intro c c' hc hcc
    rw [hw.runsAt_eq c hc, hw.runsAt_eq c' (hc.trans hcc)]
    exact greedy_length_antitone hs hc hn hcc
  refine capSearch_least hmono le_rfl (hw.dearest_le hn) hheavy ?_
  rw [hw.runsAt_eq _ hheavy]
  exact (greedy_fewest hs hheavy hn hrs le_rfl).trans hlen

/-- One run for one prover. -/
theorem packChunks_one (hn : 0 < costs.length) (h : min (max nchunks 1) costs.length = 1) :
    packChunks costs nchunks keys = [(0, costs.length)] := by
  simp [packChunks, hn.ne', h]

theorem packChunks_many (hn : 0 < costs.length) (h : min (max nchunks 1) costs.length ≠ 1) :
    packChunks costs nchunks keys =
      fillIdle (min (max nchunks 1) costs.length -
        (packAtCap costs (min (max nchunks 1) costs.length) keys).length)
        (packAtCap costs (min (max nchunks 1) costs.length) keys) := by
  simp [packChunks, hn.ne', h]

/-- Whatever the keys, the runs cover the inputs and each prover that can have one has one. -/
theorem packChunks_covers (nchunks : ℕ) (hw : Walks w costs keys) :
    Covers 0 (packChunks costs nchunks keys) costs.length ∧
      (packChunks costs nchunks keys).length = min (max nchunks 1) costs.length := by
  rcases Nat.eq_zero_or_pos costs.length with hn | hn
  · obtain rfl := List.length_eq_zero_iff.mp hn
    exact ⟨rfl, by simp [packChunks]⟩
  · have hk : 0 < min (max nchunks 1) costs.length := by omega
    by_cases h : min (max nchunks 1) costs.length = 1
    · rw [packChunks_one hn h, h]
      exact ⟨⟨rfl, hn, rfl⟩, rfl⟩
    · have hlen := (packedCap_feasible hw hn hk).2
      have hcov := packAtCap_covers (k := min (max nchunks 1) costs.length) hw hn
      rw [packChunks_many hn h]
      refine ⟨fillIdle_covers hcov _, ?_⟩
      rw [fillIdle_length hcov (by omega)]
      omega

/-- A cover by at most one run is that run. -/
theorem eq_singleton_of_covers {rs : List (ℕ × ℕ)} {n : ℕ} (hn : 0 < n) (h : Covers 0 rs n)
    (hlen : rs.length ≤ 1) : rs = [(0, n)] := by
  rcases rs with - | ⟨r, rs⟩
  · exact absurd (h : 0 = n) hn.ne
  · obtain rfl : rs = [] := List.length_eq_zero_iff.mp (by simpa using hlen)
    obtain ⟨h0, -, hend⟩ := h
    rw [← h0, ← (hend : r.2 = n)]

/-- Where the weights are steady, no cut that reaches the cost of the dearest input is lighter than
    the packed runs. -/
theorem packChunks_heaviest_le (hw : Walks w costs keys)
    (hs : Steady w (costs.max?.getD 1) costs.length) {rs : List (ℕ × ℕ)}
    (hrs : Covers 0 rs costs.length) (hlen : rs.length ≤ max nchunks 1)
    (hheavy : costs.max?.getD 1 ≤ heaviest w rs) :
    heaviest w (packChunks costs nchunks keys) ≤ heaviest w rs := by
  rcases Nat.eq_zero_or_pos costs.length with hn | hn
  · obtain rfl := List.length_eq_zero_iff.mp hn
    exact Nat.zero_le _
  · have hk : rs.length ≤ min (max nchunks 1) costs.length :=
      le_min hlen (by have := hrs.length_le; omega)
    by_cases h : min (max nchunks 1) costs.length = 1
    · rw [packChunks_one hn h, eq_singleton_of_covers hn hrs (h ▸ hk)]
    · have hfloor := (packedCap_feasible hw hn (k := min (max nchunks 1) costs.length) (by omega)).1
      have hcap := packedCap_least hw hs hn hrs hk hheavy
      have hwithin : heaviest w (packAtCap costs (min (max nchunks 1) costs.length) keys) ≤
          packedCap costs (min (max nchunks 1) costs.length) keys := by
        rw [packAtCap, hw.splitAt_eq]
        exact greedy_within (fun i hi => (hw.single i hi).trans hfloor) hn
      rw [packChunks_many hn h]
      exact (fillIdle_heaviest hs hfloor (packAtCap_covers hw hn) hwithin _).trans hcap

end Packed

/-! ## Without keys, the packer is exact -/

/-- The cost of the run `[lo, hi)`. -/
def runTotal (costs : List ℕ) (lo hi : ℕ) : ℕ := ((costs.take hi).drop lo).sum

section RunTotal

variable {costs : List ℕ}

theorem runTotal_self (costs : List ℕ) (lo : ℕ) : runTotal costs lo lo = 0 := by
  rw [runTotal, List.drop_eq_nil_of_le (List.length_take_le lo costs), List.sum_nil]

/-- One input more. -/
theorem runTotal_succ {lo i : ℕ} (hlo : lo ≤ i) (hi : i < costs.length) :
    runTotal costs lo (i + 1) = runTotal costs lo i + costs[i] := by
  have hlen : lo ≤ (costs.take i).length := by
    rw [List.length_take]
    omega
  rw [runTotal, runTotal, List.take_add_one, List.getElem?_eq_getElem hi,
    List.drop_append_of_le_length hlen, List.sum_append]
  simp

/-- A run of one input. -/
theorem runTotal_one {i : ℕ} (hi : i < costs.length) : runTotal costs i (i + 1) = costs[i] := by
  rw [runTotal_succ le_rfl hi, runTotal_self, zero_add]

/-- A run inside a run is no dearer. -/
theorem runTotal_mono {lo lo' hi hi' : ℕ} (hlo : lo ≤ lo') (hhi : hi' ≤ hi) :
    runTotal costs lo' hi' ≤ runTotal costs lo hi := by
  have hdrop : ((costs.take hi').drop lo').Sublist ((costs.take hi').drop lo) :=
    List.drop_sublist_drop_left _ hlo
  have htake : ((costs.take hi').drop lo).Sublist ((costs.take hi).drop lo) :=
    (List.take_sublist_take_left hhi).drop lo
  exact (hdrop.trans htake).sum_le_sum fun _ _ => Nat.zero_le _

theorem runTotal_le_sum (costs : List ℕ) (lo hi : ℕ) : runTotal costs lo hi ≤ costs.sum :=
  ((List.drop_sublist lo _).trans (List.take_sublist hi costs)).sum_le_sum fun _ _ => Nat.zero_le _

/-- A sum that fits 64 bits does not wrap. -/
theorem foldl_add64 {acc : ℕ} (h : acc + costs.sum < 2 ^ 64) :
    costs.foldl add64 acc = acc + costs.sum := by
  induction costs generalizing acc with
  | nil => rfl
  | cons c costs ih =>
    rw [List.sum_cons] at h ⊢
    have hacc : add64 acc c = acc + c := Nat.mod_eq_of_lt (by omega)
    rw [List.foldl_cons, hacc, ih (by omega), add_assoc]

/-- Sums of costs are steady weights. -/
theorem steady_runTotal (costs : List ℕ) :
    Steady (runTotal costs) (costs.max?.getD 1) costs.length where
  single _ hi := runTotal_one hi ▸ le_dearest hi
  longer _ hi _ _ := runTotal_mono le_rfl (Nat.le_succ hi)
  later _ _ _ hlo _ _ := (runTotal_mono hlo le_rfl).trans (le_max_left _ _)

theorem add64_runTotal (hsum : costs.sum < 2 ^ 64) {lo i : ℕ} (hlo : lo ≤ i)
    (hi : i < costs.length) :
    add64 (runTotal costs lo i) costs[i] = runTotal costs lo (i + 1) := by
  have hle := runTotal_le_sum costs lo (i + 1)
  rw [runTotal_succ hlo hi] at hle ⊢
  exact Nat.mod_eq_of_lt (by omega)

/-- `split_at_cap` walks as the greedy cut does, its accumulator the cost of the open run. -/
theorem foldl_splitStep (hsum : costs.sum < 2 ^ 64) (cap : ℕ) {i : ℕ} (hi : i ≤ costs.length) :
    (costs.take i).zipIdx.foldl (splitStep cap) ⟨[], 0, 0⟩ =
      ⟨(scan (runTotal costs) cap i).1, (scan (runTotal costs) cap i).2,
        runTotal costs (scan (runTotal costs) cap i).2 i⟩ := by
  induction i with
  | zero => simp [scan, runTotal_self]
  | succ i ih =>
    have hlt : i < costs.length := hi
    obtain ⟨-, hlo, -⟩ := scan_covers (runTotal costs) cap i
    rw [List.take_add_one, List.getElem?_eq_getElem hlt, Option.toList_some, List.zipIdx_append,
      List.foldl_append, ih hlt.le, List.length_take_of_le hlt.le]
    simp only [List.zipIdx_singleton, List.foldl_cons, List.foldl_nil, Nat.zero_add, splitStep,
      add64_runTotal hsum hlo hlt]
    by_cases h : cap < runTotal costs (scan (runTotal costs) cap i).2 (i + 1) ∧
        (scan (runTotal costs) cap i).2 < i
    · rw [if_pos h, scan_cut h, runTotal_one hlt]
    · rw [if_neg h, scan_keep h]

/-- The runs of the source are those of the greedy cut. -/
theorem splitAtCap_eq (hsum : costs.sum < 2 ^ 64) (cap : ℕ) :
    splitAtCap costs cap = greedy (runTotal costs) cap costs.length := by
  have hwalk := foldl_splitStep hsum cap le_rfl
  rw [List.take_length] at hwalk
  rw [splitAtCap, hwalk]
  rfl

/-- `runs_at_cap` counts the runs of that walk, from the cap of the dearest input on: a run is not
cut where it is empty. -/
theorem foldl_runsStep (hsum : costs.sum < 2 ^ 64) {cap : ℕ} (hcap : costs.max?.getD 1 ≤ cap)
    {i : ℕ} (hi : i ≤ costs.length) :
    (costs.take i).foldl (runsStep cap) (1, 0) =
      ((scan (runTotal costs) cap i).1.length + 1,
        runTotal costs (scan (runTotal costs) cap i).2 i) := by
  induction i with
  | zero => simp [scan, runTotal_self]
  | succ i ih =>
    have hlt : i < costs.length := hi
    obtain ⟨-, hlo, -⟩ := scan_covers (runTotal costs) cap i
    rw [List.take_add_one, List.getElem?_eq_getElem hlt, Option.toList_some, List.foldl_append,
      ih hlt.le]
    simp only [List.foldl_cons, List.foldl_nil, runsStep, add64_runTotal hsum hlo hlt]
    by_cases h : cap < runTotal costs (scan (runTotal costs) cap i).2 (i + 1)
    · have hopen : (scan (runTotal costs) cap i).2 < i := by
        refine lt_of_le_of_ne hlo fun heq => not_lt.mpr ?_ h
        rw [heq, runTotal_one hlt]
        exact (le_dearest hlt).trans hcap
      rw [if_pos h, scan_cut ⟨h, hopen⟩, runTotal_one hlt, List.length_append,
        List.length_singleton]
    · rw [if_neg h, scan_keep fun h' => h h'.1]

theorem runsAtCap_eq (hsum : costs.sum < 2 ^ 64) {cap : ℕ} (hcap : costs.max?.getD 1 ≤ cap) :
    runsAtCap costs cap = (greedy (runTotal costs) cap costs.length).length := by
  have hwalk := foldl_runsStep hsum hcap le_rfl
  rw [List.take_length] at hwalk
  rw [runsAtCap, hwalk, greedy, List.length_append, List.length_singleton]

theorem dearest_le_sum (hn : 0 < costs.length) : costs.max?.getD 1 ≤ costs.sum := by
  obtain ⟨c, hc⟩ := Option.isSome_iff_exists.mp
    (List.isSome_max?_of_ne_nil (List.ne_nil_of_length_pos hn))
  rw [hc, Option.getD_some]
  exact List.single_le_sum (fun _ _ => Nat.zero_le _) c (List.max?_mem hc)

/-- Without keys the walks of the source are greedy for the sums. -/
theorem walks_runTotal (hsum : costs.sum < 2 ^ 64) :
    Walks (runTotal costs) costs (none : Keyed κ) where
  single := (steady_runTotal costs).single
  whole i _ := by
    rw [foldl_add64 (by omega), zero_add]
    exact runTotal_le_sum costs 0 i
  dearest_le hn := by
    rw [foldl_add64 (by omega), zero_add]
    exact dearest_le_sum hn
  runsAt_eq _ := runsAtCap_eq hsum
  splitAt_eq := splitAtCap_eq hsum

/-- The run that holds the dearest input costs as much as it. -/
theorem dearest_le_heaviest {rs : List (ℕ × ℕ)} (hn : 0 < costs.length)
    (hrs : Covers 0 rs costs.length) : costs.max?.getD 1 ≤ heaviest (runTotal costs) rs := by
  obtain ⟨c, hc⟩ := Option.isSome_iff_exists.mp
    (List.isSome_max?_of_ne_nil (List.ne_nil_of_length_pos hn))
  obtain ⟨j, hj, hjc⟩ := List.getElem_of_mem (List.max?_mem hc)
  obtain ⟨r, hr, hlo, hhi⟩ := hrs.exists_mem (Nat.zero_le j) hj
  rw [hc, Option.getD_some, ← hjc, ← runTotal_one hj]
  exact (runTotal_mono hlo hhi).trans (le_heaviest hr)

end RunTotal

/-- Without keys, the runs cover the inputs in order, each once; there are as many as asked for, or
one for each input; and no cut into as many runs has a lighter heaviest run. -/
theorem packChunks_exact (costs : List ℕ) (nchunks : ℕ) (hsum : costs.sum < 2 ^ 64) :
    Covers 0 (packChunks costs nchunks (none : Keyed κ)) costs.length ∧
      ((packChunks costs nchunks (none : Keyed κ)).flatMap fun r =>
        List.range' r.1 (r.2 - r.1)) = List.range costs.length ∧
      (packChunks costs nchunks (none : Keyed κ)).length = min (max nchunks 1) costs.length ∧
      IsLeast {m | ∃ rs, Covers 0 rs costs.length ∧ rs.length ≤ max nchunks 1 ∧
          heaviest (runTotal costs) rs = m}
        (heaviest (runTotal costs) (packChunks costs nchunks (none : Keyed κ))) := by
  obtain ⟨hcov, hlen⟩ := packChunks_covers nchunks
    (walks_runTotal hsum : Walks _ _ (none : Keyed κ))
  refine ⟨hcov, ?_, hlen, ⟨_, hcov, ?_, rfl⟩, ?_⟩
  · rw [hcov.flatMap_range', Nat.sub_zero, List.range_eq_range']
  · rw [hlen]
    exact min_le_left _ _
  · rintro m ⟨rs, hrs, hk, rfl⟩
    rcases Nat.eq_zero_or_pos costs.length with hn | hn
    · obtain rfl := List.length_eq_zero_iff.mp hn
      exact Nat.zero_le _
    · exact packChunks_heaviest_le (walks_runTotal hsum) (steady_runTotal costs) hrs hk
        (dearest_le_heaviest hn hrs)

/-- Five inputs for three provers: the heaviest run costs 5. -/
theorem packChunks_exact_five :
    packChunks [3, 1, 4, 1, 5] 3 (none : Keyed (Vector UInt8 33)) = [(0, 2), (2, 4), (4, 5)] ∧
      IsLeast {m | ∃ rs, Covers 0 rs 5 ∧ rs.length ≤ 3 ∧
          heaviest (runTotal [3, 1, 4, 1, 5]) rs = m}
        (heaviest (runTotal [3, 1, 4, 1, 5])
          (packChunks [3, 1, 4, 1, 5] 3 (none : Keyed (Vector UInt8 33)))) :=
  ⟨by decide, (packChunks_exact [3, 1, 4, 1, 5] 3 (by decide)).2.2.2⟩

end Host
end Hazync
