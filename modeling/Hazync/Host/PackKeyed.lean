import Hazync.Host.PackChunks

/-!
# The packer with keys

An input is cheaper where its key was decompressed earlier in the same chunk, so what a run costs
depends on where it starts: cut off the front of a run and a later input may open with a key that is
no longer seen. The greedy cut is the best one, and halving a run is harmless, only as long as that
never makes what is left dearer.

## What a key saves

The inputs of a block often use the same public key several times, and within one chunk a key is
decompressed once. The packer knows, for each input, what it costs with its key decompressed there,
and what is saved if it was decompressed before. It does not know which chunk the input will be in
until it has cut. So the cost of an input is a function of where its run starts (`inputCost`), and
the cost of a run is the sum of these.

The walks of the source keep a set of the keys seen, and empty it at a cut. That they charge what
`inputCost` says is `take_spec`: the invariant is that the set holds the keys of the inputs of the
open run and no others. From there on the loops are those of the packer without keys.

What does not carry over is that parts are lighter than the whole. If the first input of a run has
the key, and is cheap, and the second saves much by it, the second alone may cost more than both.
Then more cap can need more runs, and halving a run for an idle prover may make the heaviest one
heavier. `FrontsHarmless` says that this does not happen beyond the cost of the dearest input, and
under it the packer is exact. An input that saves no more than the last one with its key costs does
no harm (`frontsHarmless_of_savings`).
-/

namespace Hazync
namespace Host

open GreedySplit

variable {κ : Type*}

/-- The key of input `i`, if it has one. -/
def keyAt (keys : List (Option κ)) (i : ℕ) : Option κ := keys[i]?.join

/-- The key of input `i` occurs earlier in a run that starts at `lo`. -/
def Repeated (keys : List (Option κ)) (lo i : ℕ) : Prop :=
  keyAt keys i ≠ none ∧ ∃ j < i, lo ≤ j ∧ keyAt keys j = keyAt keys i

/-- Nothing is repeated where a run opens. -/
theorem not_repeated_self (keys : List (Option κ)) (i : ℕ) : ¬Repeated keys i i :=
  fun ⟨_, _, hj, hle, _⟩ => Nat.not_lt.mpr hle hj

/-- The keys seen are those of the open run. -/
def Seen (keys : List (Option κ)) (lo i : ℕ) (seen : List κ) : Prop :=
  ∀ k, k ∈ seen ↔ ∃ j < i, lo ≤ j ∧ keyAt keys j = some k

/-- The keys seen after one input more. -/
theorem seen_succ {keys : List (Option κ)} {lo i : ℕ} (hlo : lo ≤ i)
    {seen seen' : List κ} (h : Seen keys lo i seen)
    (hs : ∀ k, k ∈ seen' ↔ k ∈ seen ∨ keyAt keys i = some k) : Seen keys lo (i + 1) seen' := by
  intro k
  rw [hs, h k]
  constructor
  · rintro (⟨j, hj, hrest⟩ | hk)
    · exact ⟨j, by omega, hrest⟩
    · exact ⟨i, Nat.lt_succ_self i, hlo, hk⟩
  · rintro ⟨j, hj, hrest⟩
    rcases Nat.lt_or_eq_of_le (Nat.le_of_lt_succ hj) with hj | rfl
    · exact .inl ⟨j, hj, hrest⟩
    · exact .inr hrest.2

theorem seen_nil (keys : List (Option κ)) (i : ℕ) : Seen keys i i [] :=
  fun _ => ⟨fun h => absurd h List.not_mem_nil,
    fun ⟨_, hj, hle, _⟩ => absurd hj (Nat.not_lt.mpr hle)⟩

variable [DecidableEq κ]

instance Repeated.decidable (keys : List (Option κ)) (lo i : ℕ) : Decidable (Repeated keys lo i) :=
  inferInstanceAs (Decidable (_ ∧ _))

/-- What input `i` costs in a run that starts at `lo`. -/
def inputCost (costs savings : List ℕ) (keys : List (Option κ)) (lo i : ℕ) : ℕ :=
  costs.getD i 0 - if Repeated keys lo i then savings.getD i 0 else 0

/-- What the run `[lo, hi)` costs. -/
def runCost (costs savings : List ℕ) (keys : List (Option κ)) (lo hi : ℕ) : ℕ :=
  ((List.range' lo (hi - lo)).map (inputCost costs savings keys lo)).sum

section RunCost

variable {costs savings : List ℕ} {keys : List (Option κ)}

/-- An empty run costs nothing. -/
theorem runCost_self (costs savings : List ℕ) (keys : List (Option κ)) (lo : ℕ) :
    runCost costs savings keys lo lo = 0 := by
  simp [runCost]

/-- One input more. -/
theorem runCost_succ {lo i : ℕ} (hlo : lo ≤ i) :
    runCost costs savings keys lo (i + 1) =
      runCost costs savings keys lo i + inputCost costs savings keys lo i := by
  have hlen : i + 1 - lo = (i - lo) + 1 := by omega
  have hlast : lo + 1 * (i - lo) = i := by omega
  rw [runCost, runCost, hlen, List.range'_concat, hlast]
  simp

/-- Where it opens a run, an input costs all of it. -/
theorem inputCost_self (costs savings : List ℕ) (keys : List (Option κ)) (i : ℕ) :
    inputCost costs savings keys i i = costs.getD i 0 := by
  rw [inputCost, if_neg (not_repeated_self keys i), Nat.sub_zero]

/-- So does a run of one input. -/
theorem runCost_one (costs savings : List ℕ) (keys : List (Option κ)) (i : ℕ) :
    runCost costs savings keys i (i + 1) = costs.getD i 0 := by
  rw [runCost_succ le_rfl, runCost_self, inputCost_self, Nat.zero_add]

/-- A run that ends later is no cheaper. -/
theorem runCost_longer {lo hi hi' : ℕ} (hlo : lo ≤ hi) (hhi : hi ≤ hi') :
    runCost costs savings keys lo hi ≤ runCost costs savings keys lo hi' := by
  induction hi', hhi using Nat.le_induction with
  | base => exact le_rfl
  | succ i hi ih =>
    rw [runCost_succ (hlo.trans hi)]
    exact ih.trans (Nat.le_add_right _ _)

/-- A key only makes a run cheaper. -/
theorem runCost_le_runTotal {lo hi : ℕ} (hlo : lo ≤ hi) (hhi : hi ≤ costs.length) :
    runCost costs savings keys lo hi ≤ runTotal costs lo hi := by
  induction hi, hlo using Nat.le_induction with
  | base => rw [runCost_self, runTotal_self]
  | succ i hi ih =>
    rw [runCost_succ hi, runTotal_succ hi hhi]
    refine Nat.add_le_add (ih (by omega)) ?_
    rw [inputCost, List.getD_eq_getElem _ _ hhi]
    exact Nat.sub_le _ _

/-! ## The walks -/

/-- `take` charges the input what it costs in the open run. -/
theorem take_spec (costs savings : List ℕ) {lo i : ℕ} (hlo : lo ≤ i) {seen : List κ}
    (h : Seen keys lo i seen) :
    ∃ seen', Seen keys lo (i + 1) seen' ∧
      (KeyWalk.mk costs savings keys seen).take i =
        (inputCost costs savings keys lo i, ⟨costs, savings, keys, seen'⟩) := by
  cases hk : keyAt keys i with
  | none =>
    have hrep : ¬Repeated keys lo i := fun hr => hr.1 hk
    refine ⟨seen, seen_succ hlo h (by simp [hk]), ?_⟩
    rw [keyAt] at hk
    simp [KeyWalk.take, hk, inputCost, hrep]
  | some k =>
    by_cases hmem : k ∈ seen
    · have hrep : Repeated keys lo i := by
        obtain ⟨j, hj, hle, hjk⟩ := (h k).mp hmem
        exact ⟨by simp [hk], j, hj, hle, hjk.trans hk.symm⟩
      refine ⟨seen, seen_succ hlo h fun k' => ?_, ?_⟩
      · rw [hk]
        exact ⟨.inl, fun h' => h'.elim id fun heq => Option.some.inj heq ▸ hmem⟩
      · rw [keyAt] at hk
        simp [KeyWalk.take, hk, inputCost, hrep, hmem]
    · have hrep : ¬Repeated keys lo i := by
        rintro ⟨-, j, hj, hle, hjk⟩
        exact hmem ((h k).mpr ⟨j, hj, hle, hjk.trans hk⟩)
      refine ⟨k :: seen, seen_succ hlo h fun k' => ?_, ?_⟩
      · rw [hk, List.mem_cons, Option.some.injEq, or_comm, eq_comm]
      · rw [keyAt] at hk
        simp [KeyWalk.take, hk, inputCost, hrep, hmem]

/-- `take_fresh` is `take` of a walk that has seen nothing. -/
theorem takeFresh_eq (w : KeyWalk κ) (i : ℕ) : w.takeFresh i = ({ w with seen := [] }).take i := by
  rw [KeyWalk.takeFresh, KeyWalk.take]
  cases w.keys[i]?.join with
  | none => rfl
  | some k => simp

theorem add64_runCost (hsum : costs.sum < 2 ^ 64) {lo i : ℕ} (hlo : lo ≤ i)
    (hi : i < costs.length) :
    add64 (runCost costs savings keys lo i) (inputCost costs savings keys lo i) =
      runCost costs savings keys lo (i + 1) := by
  have hle : runCost costs savings keys lo (i + 1) ≤ runTotal costs lo (i + 1) :=
    runCost_le_runTotal (by omega) hi
  have htotal := runTotal_le_sum costs lo (i + 1)
  rw [runCost_succ hlo] at hle ⊢
  exact Nat.mod_eq_of_lt (by omega)

/-- `split_at_cap_keyed` walks as the greedy cut for the run costs does. -/
theorem foldl_splitStepKeyed (savings : List ℕ) (keys : List (Option κ))
    (hsum : costs.sum < 2 ^ 64) (cap : ℕ) {i : ℕ} (hi : i ≤ costs.length) :
    ∃ seen, Seen keys (scan (runCost costs savings keys) cap i).2 i seen ∧
      (List.range i).foldl (splitStepKeyed cap) ⟨.new costs savings keys, [], 0, 0⟩ =
        ⟨⟨costs, savings, keys, seen⟩, (scan (runCost costs savings keys) cap i).1,
          (scan (runCost costs savings keys) cap i).2,
          runCost costs savings keys (scan (runCost costs savings keys) cap i).2 i⟩ := by
  induction i with
  | zero => exact ⟨[], seen_nil keys 0, by simp [scan, runCost_self, KeyWalk.new]⟩
  | succ i ih =>
    have hlt : i < costs.length := hi
    obtain ⟨seen, hseen, hwalk⟩ := ih hlt.le
    obtain ⟨-, hlo, -⟩ := scan_covers (runCost costs savings keys) cap i
    obtain ⟨seen', hseen', htake⟩ := take_spec costs savings hlo hseen
    obtain ⟨fresh, hfresh, hopen⟩ :=
      take_spec costs savings le_rfl (seen_nil keys i)
    rw [List.range_succ, List.foldl_append, hwalk]
    simp only [List.foldl_cons, List.foldl_nil, splitStepKeyed, htake, takeFresh_eq, hopen,
      add64_runCost hsum hlo hlt]
    by_cases h : cap < runCost costs savings keys (scan (runCost costs savings keys) cap i).2
        (i + 1) ∧ (scan (runCost costs savings keys) cap i).2 < i
    · rw [if_pos h, scan_cut h, runCost_one, inputCost_self]
      exact ⟨fresh, hfresh, rfl⟩
    · rw [if_neg h, scan_keep h]
      exact ⟨seen', hseen', rfl⟩

/-- The runs of the source are those of the greedy cut. -/
theorem splitAtCapKeyed_eq (hsum : costs.sum < 2 ^ 64) (cap : ℕ) :
    splitAtCapKeyed costs savings keys cap =
      greedy (runCost costs savings keys) cap costs.length := by
  obtain ⟨seen, -, hwalk⟩ := foldl_splitStepKeyed savings keys hsum cap le_rfl
  rw [splitAtCapKeyed, hwalk]
  rfl

/-- `runs_at_cap_keyed` counts its runs, from the cap of the dearest input on. -/
theorem foldl_runsStepKeyed (savings : List ℕ) (keys : List (Option κ))
    (hsum : costs.sum < 2 ^ 64) {cap : ℕ} (hcap : costs.max?.getD 1 ≤ cap) {i : ℕ}
    (hi : i ≤ costs.length) :
    ∃ seen, Seen keys (scan (runCost costs savings keys) cap i).2 i seen ∧
      (List.range i).foldl (runsStepKeyed cap) ⟨.new costs savings keys, 1, 0⟩ =
        ⟨⟨costs, savings, keys, seen⟩, (scan (runCost costs savings keys) cap i).1.length + 1,
          runCost costs savings keys (scan (runCost costs savings keys) cap i).2 i⟩ := by
  induction i with
  | zero => exact ⟨[], seen_nil keys 0, by simp [scan, runCost_self, KeyWalk.new]⟩
  | succ i ih =>
    have hlt : i < costs.length := hi
    obtain ⟨seen, hseen, hwalk⟩ := ih hlt.le
    obtain ⟨-, hlo, -⟩ := scan_covers (runCost costs savings keys) cap i
    obtain ⟨seen', hseen', htake⟩ := take_spec costs savings hlo hseen
    obtain ⟨fresh, hfresh, hopen⟩ :=
      take_spec costs savings le_rfl (seen_nil keys i)
    rw [List.range_succ, List.foldl_append, hwalk]
    simp only [List.foldl_cons, List.foldl_nil, runsStepKeyed, htake, takeFresh_eq, hopen,
      add64_runCost hsum hlo hlt]
    by_cases h : cap <
        runCost costs savings keys (scan (runCost costs savings keys) cap i).2 (i + 1)
    · have hstart : (scan (runCost costs savings keys) cap i).2 < i := by
        refine lt_of_le_of_ne hlo fun heq => not_lt.mpr ?_ h
        rw [heq, runCost_one, List.getD_eq_getElem _ _ hlt]
        exact (le_dearest hlt).trans hcap
      rw [if_pos h, scan_cut ⟨h, hstart⟩, runCost_one, inputCost_self, List.length_append,
        List.length_singleton]
      exact ⟨fresh, hfresh, rfl⟩
    · rw [if_neg h, scan_keep fun h' => h h'.1]
      exact ⟨seen', hseen', rfl⟩

/-- And their number is counted right. -/
theorem runsAtCapKeyed_eq (hsum : costs.sum < 2 ^ 64) {cap : ℕ}
    (hcap : costs.max?.getD 1 ≤ cap) :
    runsAtCapKeyed costs savings keys cap =
      (greedy (runCost costs savings keys) cap costs.length).length := by
  obtain ⟨seen, -, hwalk⟩ := foldl_runsStepKeyed savings keys hsum hcap le_rfl
  rw [runsAtCapKeyed, hwalk, greedy, List.length_append, List.length_singleton]

/-- With keys the walks of the source are greedy for the costs of runs. -/
theorem walks_runCost (savings : List ℕ) (keys : List (Option κ)) (hsum : costs.sum < 2 ^ 64) :
    Walks (runCost costs savings keys) costs (some (savings, keys)) where
  single i hi := by
    rw [runCost_one, List.getD_eq_getElem _ _ hi]
    exact le_dearest hi
  whole i hi := by
    rw [foldl_add64 (by omega), zero_add]
    exact (runCost_le_runTotal (Nat.zero_le i) hi).trans (runTotal_le_sum costs 0 i)
  dearest_le := (walks_runTotal hsum : Walks _ _ (none : Keyed κ)).dearest_le
  runsAt_eq _ := runsAtCapKeyed_eq hsum
  splitAt_eq := splitAtCapKeyed_eq hsum

/-! ## Cutting off a front -/

/-- Losing its front makes no run dearer than both itself and the dearest input, and no run that
holds some dearest input is cheaper than it. -/
structure FrontsHarmless (costs savings : List ℕ) (keys : List (Option κ)) : Prop where
  later : ∀ lo lo' hi, lo ≤ lo' → lo' < hi → hi ≤ costs.length →
    runCost costs savings keys lo' hi ≤ max (runCost costs savings keys lo hi) (costs.max?.getD 1)
  dearest : 0 < costs.length → ∃ j < costs.length, ∀ lo hi, lo ≤ j → j < hi → hi ≤ costs.length →
    costs.max?.getD 1 ≤ runCost costs savings keys lo hi

/-- Where fronts are harmless, the costs of runs are steady weights. -/
theorem steady_runCost (h : FrontsHarmless costs savings keys) :
    Steady (runCost costs savings keys) (costs.max?.getD 1) costs.length where
  single i hi := by
    rw [runCost_one, List.getD_eq_getElem _ _ hi]
    exact le_dearest hi
  longer _ hi hlo _ := runCost_longer hlo (Nat.le_succ hi)
  later := h.later

/-- Losing its first input, a run loses the cost of it, and the next input with the same key loses
its saving. -/
theorem runCost_front (keys : List (Option κ))
    (hle : ∀ i < costs.length, savings.getD i 0 ≤ costs.getD i 0) {lo hi : ℕ}
    (hlo : lo + 1 ≤ hi) (hhi : hi ≤ costs.length) :
    ((keyAt keys lo ≠ none → ∀ i < hi, lo < i → keyAt keys i ≠ keyAt keys lo) ∧
        runCost costs savings keys lo hi =
          costs.getD lo 0 + runCost costs savings keys (lo + 1) hi) ∨
      ∃ i < hi, lo < i ∧ keyAt keys lo = keyAt keys i ∧ keyAt keys i ≠ none ∧
        (∀ m < i, lo < m → keyAt keys m ≠ keyAt keys i) ∧
        runCost costs savings keys lo hi + savings.getD i 0 =
          costs.getD lo 0 + runCost costs savings keys (lo + 1) hi := by
  induction hi, hlo using Nat.le_induction with
  | base =>
    refine .inl ⟨fun _ i hi hlo => absurd hi (by omega), ?_⟩
    rw [runCost_one, runCost_self, Nat.add_zero]
  | succ hi hlo ih =>
    have hprev := ih (by omega)
    rw [runCost_succ (by omega), runCost_succ hlo]
    -- the input at `hi` is charged differently only where the one at `lo` is the last with its key
    have hsame : (keyAt keys hi = keyAt keys lo →
          Repeated keys (lo + 1) hi ∨ keyAt keys lo = none) →
        inputCost costs savings keys lo hi = inputCost costs savings keys (lo + 1) hi := by
      intro hkey
      have hiff : Repeated keys lo hi ↔ Repeated keys (lo + 1) hi := by
        constructor
        · rintro ⟨hk, j, hj, hle, hjk⟩
          rcases Nat.eq_or_lt_of_le hle with rfl | hlt
          · exact (hkey hjk.symm).resolve_right (hjk ▸ hk)
          · exact ⟨hk, j, hj, hlt, hjk⟩
        · rintro ⟨hk, j, hj, hle, hjk⟩
          exact ⟨hk, j, hj, by omega, hjk⟩
      simp only [inputCost, hiff]
    rcases hprev with ⟨hnone, heq⟩ | ⟨i, hi, hlt, hki, hk, hnext, heq⟩
    · by_cases hkey : keyAt keys hi = keyAt keys lo ∧ keyAt keys lo ≠ none
      · have hrep : Repeated keys lo hi := ⟨hkey.1 ▸ hkey.2, lo, hlo, le_rfl, hkey.1.symm⟩
        have hfirst : ¬Repeated keys (lo + 1) hi := by
          rintro ⟨-, j, hj, hle, hjk⟩
          exact hnone hkey.2 j hj hle (hjk.trans hkey.1)
        have hs := hle hi (by omega)
        refine .inr ⟨hi, Nat.lt_succ_self hi, hlo, hkey.1.symm, hkey.1 ▸ hkey.2,
          fun m hm hlom => hkey.1 ▸ hnone hkey.2 m hm hlom, ?_⟩
        simp only [inputCost, if_pos hrep, if_neg hfirst]
        omega
      · refine .inl ⟨fun hk i hi' hlt => ?_, ?_⟩
        · rcases Nat.lt_or_eq_of_le (Nat.le_of_lt_succ hi') with hi' | rfl
          · exact hnone hk i hi' hlt
          · exact fun h => hkey ⟨h, hk⟩
        · rw [hsame fun h => .inr (not_not.mp fun hk => hkey ⟨h, hk⟩), heq, Nat.add_assoc]
    · refine .inr ⟨i, by omega, hlt, hki, hk, hnext, ?_⟩
      rw [hsame fun h => .inl ⟨h ▸ hki ▸ hk, i, hi, hlt, hki.symm.trans h.symm⟩]
      omega

/-- Where no input saves more than the last one with its key costs, fronts may be cut off. -/
theorem frontsHarmless_of_savings
    (hle : ∀ i < costs.length, savings.getD i 0 ≤ costs.getD i 0)
    (hpair : ∀ j i, j < i → i < costs.length → keyAt keys j = keyAt keys i → keyAt keys i ≠ none →
      (∀ m < i, j < m → keyAt keys m ≠ keyAt keys i) → savings.getD i 0 ≤ costs.getD j 0) :
    FrontsHarmless costs savings keys := by
  have hone : ∀ lo hi, lo < hi → hi ≤ costs.length →
      runCost costs savings keys (lo + 1) hi ≤ runCost costs savings keys lo hi := by
    intro lo hi hlo hhi
    rcases runCost_front keys hle hlo hhi with ⟨-, heq⟩ | ⟨i, hi', hlt, hki, hk, hnext, heq⟩
    · omega
    · have := hpair lo i hlt (by omega) hki hk hnext
      omega
  have hmany : ∀ lo lo' hi, lo ≤ lo' → lo' ≤ hi → hi ≤ costs.length →
      runCost costs savings keys lo' hi ≤ runCost costs savings keys lo hi := by
    intro lo lo' hi hlo hlt hhi
    induction lo', hlo using Nat.le_induction with
    | base => exact le_rfl
    | succ m hm ih => exact (hone m hi hlt hhi).trans (ih (by omega))
  constructor
  · intro lo lo' hi hlo hlt hhi
    exact (hmany lo lo' hi hlo hlt.le hhi).trans (le_max_left _ _)
  · intro hn
    obtain ⟨c, hc⟩ := Option.isSome_iff_exists.mp
      (List.isSome_max?_of_ne_nil (List.ne_nil_of_length_pos hn))
    obtain ⟨j, hj, hjc⟩ := List.getElem_of_mem (List.max?_mem hc)
    refine ⟨j, hj, fun lo hi hlo hhi hle => ?_⟩
    calc costs.max?.getD 1 = runCost costs savings keys j (j + 1) := by
          rw [hc, Option.getD_some, ← hjc, runCost_one, List.getD_eq_getElem _ _ hj]
      _ ≤ runCost costs savings keys lo (j + 1) := hmany lo j (j + 1) hlo (by omega) hj
      _ ≤ runCost costs savings keys lo hi :=
          runCost_longer (by omega) (Nat.succ_le_of_lt hhi)

end RunCost

/-! ## When the packer with keys is exact -/

/-- The runs cover the inputs in order, at most `nchunks` of them; no cut into as many has a lighter
heaviest run; and dividing runs for idle provers made nothing heavier. -/
structure PackExact (costs savings : List ℕ) (keys : List (Option κ)) (nchunks : ℕ) : Prop where
  /-- No input is left out or given twice. -/
  covers : Covers 0 (packChunks costs nchunks (some (savings, keys))) costs.length
  /-- Not more runs than chunks were asked for; with none asked for there is one. -/
  at_most : (packChunks costs nchunks (some (savings, keys))).length ≤ max nchunks 1
  /-- The heaviest run is as light as it can be, over all ways to cut. -/
  least : IsLeast {m | ∃ rs, Covers 0 rs costs.length ∧ rs.length ≤ max nchunks 1 ∧
      heaviest (runCost costs savings keys) rs = m}
    (heaviest (runCost costs savings keys) (packChunks costs nchunks (some (savings, keys))))
  /-- Runs that are divided so that no prover idles only get lighter. -/
  filled : 1 < nchunks → heaviest (runCost costs savings keys)
      (packChunks costs nchunks (some (savings, keys))) ≤
    heaviest (runCost costs savings keys)
      (packAtCap costs (min (max nchunks 1) costs.length) (some (savings, keys)))

section Exact

variable {costs savings : List ℕ} {keys : List (Option κ)} {nchunks : ℕ}

/-- A run that holds the dearest input costs as much as it. -/
theorem FrontsHarmless.dearest_le (h : FrontsHarmless costs savings keys) (hn : 0 < costs.length)
    {rs : List (ℕ × ℕ)} (hrs : Covers 0 rs costs.length) :
    costs.max?.getD 1 ≤ heaviest (runCost costs savings keys) rs := by
  obtain ⟨j, hj, hmin⟩ := h.dearest hn
  obtain ⟨r, hr, hlo, hhi⟩ := hrs.exists_mem (Nat.zero_le j) hj
  exact (hmin r.1 r.2 hlo hhi (hrs.bounds hr).2.2).trans (le_heaviest hr)

/-- Giving idle provers a run makes nothing heavier. -/
theorem packChunks_filled (hsum : costs.sum < 2 ^ 64) (h : FrontsHarmless costs savings keys) :
    heaviest (runCost costs savings keys) (packChunks costs nchunks (some (savings, keys))) ≤
      heaviest (runCost costs savings keys)
        (packAtCap costs (min (max nchunks 1) costs.length) (some (savings, keys))) := by
  rcases Nat.eq_zero_or_pos costs.length with hn | hn
  · obtain rfl := List.length_eq_zero_iff.mp hn
    exact Nat.zero_le _
  · have hw := walks_runCost savings keys hsum
    have hcov := packAtCap_covers (k := min (max nchunks 1) costs.length) hw hn
    by_cases hk : min (max nchunks 1) costs.length = 1
    · have hlen := (packedCap_feasible (k := 1) hw hn Nat.one_pos).2
      rw [hk] at hcov ⊢
      rw [packChunks_one hn hk, eq_singleton_of_covers hn hcov hlen]
    · rw [packChunks_many hn hk]
      exact fillIdle_heaviest (steady_runCost h) (h.dearest_le hn hcov) hcov le_rfl _

/-- One run for one prover, whatever the costs. -/
theorem packExact_one (h : nchunks ≤ 1) : PackExact costs savings keys nchunks := by
  have hk : max nchunks 1 = 1 := max_eq_right h
  rcases Nat.eq_zero_or_pos costs.length with hn | hn
  · obtain rfl := List.length_eq_zero_iff.mp hn
    exact ⟨rfl, Nat.zero_le _, ⟨⟨[], rfl, Nat.zero_le _, rfl⟩, fun m _ => Nat.zero_le m⟩,
      fun _ => Nat.zero_le _⟩
  · have hrun : packChunks costs nchunks (some (savings, keys)) = [(0, costs.length)] :=
      packChunks_one hn (by omega)
    have hcov : Covers 0 [(0, costs.length)] costs.length := ⟨rfl, hn, rfl⟩
    refine ⟨hrun ▸ hcov, by rw [hrun, hk]; rfl, ?_, fun hmany => absurd h (Nat.not_le.mpr hmany)⟩
    rw [hrun, hk]
    refine ⟨⟨_, hcov, le_rfl, rfl⟩, ?_⟩
    rintro m ⟨rs, hrs, hlen, rfl⟩
    rw [eq_singleton_of_covers hn hrs hlen]

end Exact

/-- With keys, the packer is exact for one prover, and where cutting off fronts is harmless: the
runs cover the inputs in order, there are no more of them than provers, and the heaviest is as light
as that of any other such partition. -/
theorem packChunks_keyed_exact (costs savings : List ℕ) (keys : List (Option κ)) (nchunks : ℕ)
    (h : nchunks ≤ 1 ∨ costs.sum < 2 ^ 64 ∧ FrontsHarmless costs savings keys) :
    PackExact costs savings keys nchunks := by
  rcases h with hone | ⟨hsum, hfronts⟩
  · exact packExact_one hone
  have hw := walks_runCost savings keys hsum
  obtain ⟨hcov, hlen⟩ := packChunks_covers nchunks hw
  have hmost : (packChunks costs nchunks (some (savings, keys))).length ≤ max nchunks 1 :=
    hlen ▸ min_le_left _ _
  refine ⟨hcov, hmost, ⟨⟨_, hcov, hmost, rfl⟩, ?_⟩, fun _ => packChunks_filled hsum hfronts⟩
  rintro m ⟨rs, hrs, hk, rfl⟩
  rcases Nat.eq_zero_or_pos costs.length with hn | hn
  · obtain rfl := List.length_eq_zero_iff.mp hn
    exact Nat.zero_le _
  · exact packChunks_heaviest_le hw (steady_runCost hfronts) hrs hk (hfronts.dearest_le hn hrs)

/-- Three inputs with one key, each saving less than the one before it costs. -/
theorem packChunks_keyed_exact_three :
    PackExact [9, 7, 5] [0, 6, 4]
      (List.replicate 3 (some (Vector.replicate 33 (2 : UInt8)))) 2 := by
  refine packChunks_keyed_exact _ _ _ 2
    (.inr ⟨by decide, frontsHarmless_of_savings (by decide) fun j i hj hi _ _ _ => ?_⟩)
  have hpairs : ∀ i < 3, ∀ j < i, [0, 6, 4].getD i 0 ≤ [9, 7, 5].getD j 0 := by decide
  exact hpairs i hi j hj

/-- Two inputs with one key cost 3 as one run. The second alone costs 10, so the cap starts there;
one run fits under it, and halving that run for the idle prover makes the heaviest run cost 10. -/
theorem packChunks_keyed_not_exact :
    ¬PackExact [1, 10] [0, 8] (List.replicate 2 (some (Vector.replicate 33 (2 : UInt8)))) 2 := by
  intro h
  have hone := h.least.2 ⟨[(0, 2)], ⟨rfl, by decide, rfl⟩, by decide, rfl⟩
  exact absurd hone (by decide)

end Host
end Hazync
