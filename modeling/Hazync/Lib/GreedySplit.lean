import Mathlib.Algebra.GroupWithZero.Nat
import Mathlib.Data.List.Basic
import Mathlib.Order.MinMax
import Mathlib.Tactic.Common

/-!
# Contiguous runs under a cap

A row of `n` items is cut into contiguous runs, and `w lo hi` is the weight of the run `[lo, hi)`.
The greedy cut opens a new run only when the open one would go over the cap. Where cutting the
front off a run never makes it heavier, no cut under the same cap has fewer runs.

## Staying ahead

That the greedy cut needs the fewest runs is shown in the usual way, by comparing it with another
cut under the same cap, position by position. At each position the greedy cut has closed fewer runs
than the other, or as many and then its open run did not start earlier (`scan_ahead`). An open run
that starts later is no heavier, and so the greedy cut is never the first that has to close one.

This uses that a run is no heavier than one that it is the end of. For sums of weights it is
obvious. Where items share something, so that an item is cheaper with another one before it in the
run, it may be false, since the item that paid may have been cut off. The condition `Steady` allows
for that up to a `floor`: what is left may be heavier than the run was, but then not heavier than
the floor, and no cap below the floor is tried.

Dividing a run in two is the same question: both parts must not be heavier than the whole, or than
the floor (`heaviest_divide`).
-/

namespace GreedySplit

/-- Non-empty runs, each starting where the one before it ended, from `lo` to `hi`. -/
def Covers : ℕ → List (ℕ × ℕ) → ℕ → Prop
  | lo, [], hi => lo = hi
  | lo, r :: rs, hi => r.1 = lo ∧ r.1 < r.2 ∧ Covers r.2 rs hi

@[simp] theorem covers_nil (lo hi : ℕ) : Covers lo [] hi ↔ lo = hi := Iff.rfl

@[simp] theorem covers_cons (lo hi : ℕ) (r : ℕ × ℕ) (rs : List (ℕ × ℕ)) :
    Covers lo (r :: rs) hi ↔ r.1 = lo ∧ r.1 < r.2 ∧ Covers r.2 rs hi := Iff.rfl

/-- A cover in two stretches. -/
theorem covers_append {xs ys : List (ℕ × ℕ)} {lo hi : ℕ} :
    Covers lo (xs ++ ys) hi ↔ ∃ m, Covers lo xs m ∧ Covers m ys hi := by
  induction xs generalizing lo with
  | nil => simp
  | cons r xs ih =>
    simp only [List.cons_append, covers_cons, ih]
    constructor
    · rintro ⟨hlo, hr, m, hx, hy⟩
      exact ⟨m, ⟨hlo, hr, hx⟩, hy⟩
    · rintro ⟨m, ⟨hlo, hr, hx⟩, hy⟩
      exact ⟨hlo, hr, m, hx, hy⟩

/-- One more run at the end. -/
theorem covers_concat {xs : List (ℕ × ℕ)} {lo hi : ℕ} {r : ℕ × ℕ} :
    Covers lo (xs ++ [r]) hi ↔ Covers lo xs r.1 ∧ r.1 < r.2 ∧ r.2 = hi := by
  rw [covers_append]
  constructor
  · rintro ⟨m, hx, rfl, hr, hhi⟩
    exact ⟨hx, hr, hhi⟩
  · rintro ⟨hx, hr, hhi⟩
    exact ⟨r.1, hx, rfl, hr, hhi⟩

namespace Covers

variable {rs : List (ℕ × ℕ)} {lo hi : ℕ}

/-- There are no more runs than positions. -/
theorem length_le (h : Covers lo rs hi) : lo + rs.length ≤ hi := by
  induction rs generalizing lo with
  | nil => exact h.le
  | cons r rs ih =>
    obtain ⟨hlo, hr, hrs⟩ := h
    have := ih hrs
    rw [List.length_cons]
    omega

/-- A run lies within the cover. -/
theorem bounds (h : Covers lo rs hi) {r : ℕ × ℕ} (hr : r ∈ rs) :
    lo ≤ r.1 ∧ r.1 < r.2 ∧ r.2 ≤ hi := by
  induction rs generalizing lo with
  | nil => exact absurd hr List.not_mem_nil
  | cons r' rs ih =>
    obtain ⟨hlo, hr', hrs⟩ := h
    rcases List.mem_cons.mp hr with rfl | hr
    · exact ⟨hlo.ge, hr', by have := hrs.length_le; omega⟩
    · obtain ⟨h1, h2, h3⟩ := ih hrs hr
      exact ⟨by omega, h2, h3⟩

/-- Every position lies in a run. -/
theorem exists_mem (h : Covers lo rs hi) {j : ℕ} (hlo : lo ≤ j) (hhi : j < hi) :
    ∃ r ∈ rs, r.1 ≤ j ∧ j < r.2 := by
  induction rs generalizing lo with
  | nil =>
    obtain rfl : lo = hi := h
    omega
  | cons r rs ih =>
    obtain ⟨rfl, hr, hrs⟩ := h
    rcases Nat.lt_or_ge j r.2 with hj | hj
    · exact ⟨r, List.mem_cons_self, hlo, hj⟩
    · obtain ⟨r', hr', hj'⟩ := ih hrs hj
      exact ⟨r', List.mem_cons_of_mem _ hr', hj'⟩

/-- The runs list the positions in order, each exactly once. -/
theorem flatMap_range' (h : Covers lo rs hi) :
    (rs.flatMap fun r => List.range' r.1 (r.2 - r.1)) = List.range' lo (hi - lo) := by
  induction rs generalizing lo with
  | nil =>
    obtain rfl : lo = hi := h
    simp
  | cons r rs ih =>
    obtain ⟨rfl, hr, hrs⟩ := h
    have hle := hrs.length_le
    rw [List.flatMap_cons, ih hrs]
    have hmid : r.2 = r.1 + 1 * (r.2 - r.1) := by omega
    have hlen : hi - r.1 = (r.2 - r.1) + (hi - r.2) := by omega
    conv_lhs => rw [show List.range' r.2 (hi - r.2) = List.range' (r.1 + 1 * (r.2 - r.1)) (hi - r.2)
      by rw [← hmid]]
    rw [List.range'_append, hlen]

/-- The stretches of a list under the runs, one after the other. -/
theorem flatMap_slice {α : Type*} (l : List α) (h : Covers lo rs hi) (hl : hi ≤ l.length) :
    (rs.flatMap fun r => (l.take r.2).drop r.1) = (l.take hi).drop lo := by
  induction rs generalizing lo with
  | nil =>
    obtain rfl : lo = hi := h
    rw [List.flatMap_nil, List.drop_eq_nil_of_le (List.length_take_le lo l)]
  | cons r rs ih =>
    obtain ⟨rfl, hr, hrs⟩ := h
    have hle := hrs.length_le
    have hlen : r.1 ≤ (l.take r.2).length := by
      rw [List.length_take]
      omega
    have htake : l.take hi = l.take r.2 ++ (l.take hi).drop r.2 := by
      conv_lhs => rw [← List.take_append_drop r.2 (l.take hi)]
      rw [List.take_take, min_eq_left (by omega)]
    rw [List.flatMap_cons, ih hrs, htake, List.drop_append_of_le_length hlen, ← htake]

/-- Runs too narrow to divide are as many as the positions. -/
theorem length_eq (h : Covers lo rs hi) (hn : ∀ r ∈ rs, r.2 - r.1 < 2) :
    lo + rs.length = hi := by
  induction rs generalizing lo with
  | nil => exact h
  | cons r rs ih =>
    obtain ⟨hlo, hr, hrs⟩ := h
    have hw := hn r List.mem_cons_self
    have := ih hrs fun r' hr' => hn r' (List.mem_cons_of_mem _ hr')
    rw [List.length_cons]
    omega

/-- A run cut in two. -/
theorem divide {xs ys : List (ℕ × ℕ)} {a m b : ℕ} (h : Covers lo (xs ++ (a, b) :: ys) hi)
    (ham : a < m) (hmb : m < b) : Covers lo (xs ++ (a, m) :: (m, b) :: ys) hi := by
  obtain ⟨c, hx, ha, -, hy⟩ := covers_append.mp h
  exact covers_append.mpr ⟨c, hx, ha, ham, rfl, hmb, hy⟩

end Covers

/-! ## The heaviest run -/

variable (w : ℕ → ℕ → ℕ)

/-- The largest weight of a run, and 0 if there is none. -/
def heaviest (rs : List (ℕ × ℕ)) : ℕ := (rs.map fun r => w r.1 r.2).foldr max 0

variable {w}

/-- A bound for every run is one for the heaviest. -/
theorem heaviest_le {rs : List (ℕ × ℕ)} {c : ℕ} :
    heaviest w rs ≤ c ↔ ∀ r ∈ rs, w r.1 r.2 ≤ c := by
  induction rs with
  | nil => simp [heaviest]
  | cons r rs ih =>
    rw [List.forall_mem_cons, ← ih]
    exact max_le_iff

/-- No run is heavier. -/
theorem le_heaviest {rs : List (ℕ × ℕ)} {r : ℕ × ℕ} (hr : r ∈ rs) :
    w r.1 r.2 ≤ heaviest w rs := heaviest_le.mp le_rfl r hr

/-! ## The greedy cut -/

variable (w) in
/-- The closed runs and the start of the open one, after the first `i` items. -/
def scan (cap : ℕ) : ℕ → List (ℕ × ℕ) × ℕ
  | 0 => ([], 0)
  | i + 1 =>
    let s := scan cap i
    if cap < w s.2 (i + 1) ∧ s.2 < i then (s.1 ++ [(s.2, i)], i) else s

variable (w) in
/-- All runs of the greedy cut: the open one is closed at the end. -/
def greedy (cap n : ℕ) : List (ℕ × ℕ) := (scan w cap n).1 ++ [((scan w cap n).2, n)]

/-- Weights the greedy cut is right for: one item weighs at most `floor`, a longer run is no
lighter, and what is left of a run after cutting off its front is no heavier than the run was, or
than `floor`. -/
structure Steady (w : ℕ → ℕ → ℕ) (floor n : ℕ) : Prop where
  /-- The floor, below which no cap is tried. -/
  single : ∀ i < n, w i (i + 1) ≤ floor
  /-- One item more never makes a run lighter. -/
  longer : ∀ lo hi, lo ≤ hi → hi < n → w lo hi ≤ w lo (hi + 1)
  /-- Cutting off the front may cost what was shared over the cut, but never more than the floor. -/
  later : ∀ lo lo' hi, lo ≤ lo' → lo' < hi → hi ≤ n → w lo' hi ≤ max (w lo hi) floor

variable {floor n cap : ℕ}

/-- A longer run is no lighter. -/
theorem Steady.longer_le (hs : Steady w floor n) {lo hi hi' : ℕ} (hlo : lo ≤ hi) (hhi : hi ≤ hi')
    (hn : hi' ≤ n) : w lo hi ≤ w lo hi' := by
  induction hi', hhi using Nat.le_induction with
  | base => exact le_rfl
  | succ m hm ih => exact (ih (by omega)).trans (hs.longer lo m (by omega) (by omega))

/-- Where the open run would go over the cap, it is closed. -/
theorem scan_cut {i : ℕ} (h : cap < w (scan w cap i).2 (i + 1) ∧ (scan w cap i).2 < i) :
    scan w cap (i + 1) = ((scan w cap i).1 ++ [((scan w cap i).2, i)], i) := if_pos h

/-- Otherwise the item goes into it. -/
theorem scan_keep {i : ℕ} (h : ¬(cap < w (scan w cap i).2 (i + 1) ∧ (scan w cap i).2 < i)) :
    scan w cap (i + 1) = scan w cap i := if_neg h

/-- The open run starts where the closed ones end, before the last item taken. -/
theorem scan_covers (w : ℕ → ℕ → ℕ) (cap i : ℕ) : Covers 0 (scan w cap i).1 (scan w cap i).2 ∧
    (scan w cap i).2 ≤ i ∧ (0 < i → (scan w cap i).2 < i) := by
  induction i with
  | zero => exact ⟨rfl, le_rfl, fun h => h⟩
  | succ i ih =>
    obtain ⟨hcov, hle, -⟩ := ih
    by_cases h : cap < w (scan w cap i).2 (i + 1) ∧ (scan w cap i).2 < i
    · rw [scan_cut h]
      exact ⟨covers_concat.mpr ⟨hcov, h.2, rfl⟩, by simp, by simp⟩
    · rw [scan_keep h]
      exact ⟨hcov, by omega, fun _ => by omega⟩

/-- The greedy cut is a cover. -/
theorem greedy_covers (hn : 0 < n) : Covers 0 (greedy w cap n) n := by
  obtain ⟨hcov, -, hlt⟩ := scan_covers w cap n
  exact covers_concat.mpr ⟨hcov, hlt hn, rfl⟩

/-- As long as each item fits alone, no run is over the cap. -/
theorem scan_within (hone : ∀ i < n, w i (i + 1) ≤ cap) {i : ℕ} (hi : i ≤ n) :
    (∀ r ∈ (scan w cap i).1, w r.1 r.2 ≤ cap) ∧ (0 < i → w (scan w cap i).2 i ≤ cap) := by
  induction i with
  | zero => exact ⟨by simp [scan], fun h => absurd h (Nat.lt_irrefl 0)⟩
  | succ i ih =>
    obtain ⟨hall, hopen⟩ := ih (by omega)
    obtain ⟨-, hle, -⟩ := scan_covers w cap i
    by_cases h : cap < w (scan w cap i).2 (i + 1) ∧ (scan w cap i).2 < i
    · rw [scan_cut h]
      have hlast : w (scan w cap i).2 i ≤ cap := hopen (by omega)
      exact ⟨List.forall_mem_append.mpr ⟨hall, by simpa using hlast⟩, fun _ => hone i (by omega)⟩
    · rw [scan_keep h]
      refine ⟨hall, fun _ => ?_⟩
      rcases Nat.lt_or_ge (scan w cap i).2 i with hlt | hge
      · exact not_lt.mp fun hw => h ⟨hw, hlt⟩
      · rw [show (scan w cap i).2 = i by omega]
        exact hone i (by omega)

/-- So the greedy cut is within the cap. -/
theorem greedy_within (hone : ∀ i < n, w i (i + 1) ≤ cap) (hn : 0 < n) :
    heaviest w (greedy w cap n) ≤ cap := by
  obtain ⟨hall, hopen⟩ := scan_within hone le_rfl
  exact heaviest_le.mpr (List.forall_mem_append.mpr ⟨hall, by simpa using hopen hn⟩)

/-- The greedy cut stays ahead: any cut of the first `i` items under the cap has closed more runs,
or as many and opened its last one no later. -/
theorem scan_ahead (hs : Steady w floor n) (hc : floor ≤ cap) {i : ℕ} (hi : i ≤ n)
    {rs : List (ℕ × ℕ)} {p : ℕ} (hrs : Covers 0 rs p) (hp : p < i)
    (hw : ∀ r ∈ rs, w r.1 r.2 ≤ cap) (hlast : w p i ≤ cap) :
    (scan w cap i).1.length < rs.length ∨
      (scan w cap i).1.length = rs.length ∧ p ≤ (scan w cap i).2 := by
  induction i generalizing rs p with
  | zero => omega
  | succ i ih =>
    rcases Nat.lt_or_ge p i with hpi | hpi
    · -- the last run of the cut was open before item `i`
      have hprev := ih (by omega) hrs hpi hw ((hs.longer p i hpi.le (by omega)).trans hlast)
      by_cases h : cap < w (scan w cap i).2 (i + 1) ∧ (scan w cap i).2 < i
      · rw [scan_cut h, List.length_append, List.length_singleton]
        rcases hprev with hlt | ⟨-, hple⟩
        · have hlt' := Nat.lt_or_eq_of_le (Nat.succ_le_of_lt hlt)
          exact hlt'.imp_right fun heq => ⟨heq, hpi.le⟩
        · have hopen := (hs.later p _ (i + 1) hple (by omega) hi).trans (max_le hlast hc)
          exact absurd h.1 (not_lt.mpr hopen)
      · rwa [scan_keep h]
    · -- it is item `i` alone
      obtain rfl : p = i := by omega
      have hprev : (scan w cap p).1.length < rs.length ∨ p = 0 := by
        rcases List.eq_nil_or_concat' rs with rfl | ⟨init, r, rfl⟩
        · exact .inr (hrs : 0 = p).symm
        · obtain ⟨hinit, hr, rfl⟩ := covers_concat.mp hrs
          have hall := List.forall_mem_append.mp hw
          have := ih (by omega) hinit hr hall.1 (hall.2 r (List.mem_singleton_self r))
          rw [List.length_append, List.length_singleton]
          omega
      by_cases h : cap < w (scan w cap p).2 (p + 1) ∧ (scan w cap p).2 < p
      · rw [scan_cut h, List.length_append, List.length_singleton]
        have hlt : (scan w cap p).1.length < rs.length := hprev.resolve_right (by omega)
        exact (Nat.lt_or_eq_of_le (Nat.succ_le_of_lt hlt)).imp_right fun heq => ⟨heq, le_rfl⟩
      · rw [scan_keep h]
        rcases hprev with hlt | rfl
        · exact .inl hlt
        · exact (Nat.eq_zero_or_pos rs.length).symm.imp_right fun heq => ⟨heq.symm, Nat.zero_le _⟩

/-- No cut under the cap has fewer runs than the greedy one. -/
theorem greedy_fewest (hs : Steady w floor n) (hc : floor ≤ cap) (hn : 0 < n)
    {rs : List (ℕ × ℕ)} (hrs : Covers 0 rs n) (hw : heaviest w rs ≤ cap) :
    (greedy w cap n).length ≤ rs.length := by
  rcases List.eq_nil_or_concat' rs with rfl | ⟨init, r, rfl⟩
  · exact absurd (hrs : 0 = n) hn.ne
  · obtain ⟨hinit, hr, rfl⟩ := covers_concat.mp hrs
    have hall := List.forall_mem_append.mp (heaviest_le.mp hw)
    have := scan_ahead hs hc le_rfl hinit hr hall.1 (hall.2 r (List.mem_singleton_self r))
    rw [greedy, List.length_append, List.length_append, List.length_singleton,
      List.length_singleton]
    omega

/-- A larger cap needs no more runs. -/
theorem greedy_length_antitone (hs : Steady w floor n) (hc : floor ≤ cap) (hn : 0 < n) {cap' : ℕ}
    (hcap : cap ≤ cap') : (greedy w cap' n).length ≤ (greedy w cap n).length :=
  greedy_fewest hs (hc.trans hcap) hn (greedy_covers hn)
    ((greedy_within (fun i hi => (hs.single i hi).trans hc) hn).trans hcap)

/-- Under a cap that holds every run from the start, there is one run. -/
theorem greedy_whole (hw : ∀ i ≤ n, w 0 i ≤ cap) : greedy w cap n = [(0, n)] := by
  have hscan : ∀ i ≤ n, scan w cap i = ([], 0) := by
    intro i hi
    induction i with
    | zero => rfl
    | succ i ih =>
      have h : ¬(cap < w (scan w cap i).2 (i + 1) ∧ (scan w cap i).2 < i) := by
        rw [ih (by omega)]
        exact fun h => not_lt.mpr (hw (i + 1) hi) h.1
      rw [scan_keep h, ih (by omega)]
  rw [greedy, hscan n le_rfl]
  rfl

/-- A run divided in two makes nothing heavier than the heaviest run or `floor`. -/
theorem heaviest_divide (hs : Steady w floor n) {xs ys : List (ℕ × ℕ)} {a m b : ℕ} (ham : a < m)
    (hmb : m < b) (hbn : b ≤ n) (h : heaviest w (xs ++ (a, b) :: ys) ≤ cap) (hc : floor ≤ cap) :
    heaviest w (xs ++ (a, m) :: (m, b) :: ys) ≤ cap := by
  have hall := heaviest_le.mp h
  have hab : w a b ≤ cap := hall (a, b) (by simp)
  refine heaviest_le.mpr fun r hr => ?_
  rcases List.mem_append.mp hr with hx | hr
  · exact hall r (by simp [hx])
  rcases List.mem_cons.mp hr with rfl | hr
  · exact (hs.longer_le ham.le hmb.le hbn).trans hab
  rcases List.mem_cons.mp hr with rfl | hy
  · exact (hs.later a m b ham.le hmb hbn).trans (max_le hab hc)
  · exact hall r (by simp [hy])

end GreedySplit
