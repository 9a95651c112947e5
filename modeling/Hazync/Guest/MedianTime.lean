import Hazync.Accumulator.PresentRoots
import Hazync.Guest.HeaderChain

/-!
# The median time bounds the chain

A block's time is after the median of the last eleven, so the median never falls, and eleven blocks
raise it: by then all the times it is the median of are after the old one. It is a number of 32
bits, which bounds how many blocks there can be on the state after block 0, whatever heights they
say they have.

## A bound that the guest does not have

The accumulator's results need that there are fewer than 2⁶⁴ leaves, and a block adds at most as
many as a vector of the 32-bit guest holds. So one has to know that there are not too many blocks,
and the heights do not tell, since they are 32-bit words that the witness brings and that go around.
The times do. Each is after the median of the eleven before it; after eleven blocks the median has
gone up; and it is a 32-bit number. So there are fewer than 11 · 2³² blocks.

The median is the entry of a sorted list in the middle, and is handled by counting: an entry is at
least `x` when enough entries are (`le_insertionSort_iff`). Sorting itself does not come up again.
-/

namespace Hazync
namespace Guest

open ByteStrings

/-! ## An entry of a sorted list -/

/-- An entry of a sorted list is no less than `x` when there are as many such entries as places
from it on. -/
theorem le_insertionSort_iff {α : Type} [LinearOrder α] {l : List α} {i : ℕ} {a : α}
    (h : (l.insertionSort (· ≤ ·))[i]? = some a) (x : α) :
    x ≤ a ↔ l.length - i ≤ l.countP (x ≤ ·) := by
  rw [← (List.perm_insertionSort (· ≤ ·) l).countP_eq,
    ← List.length_insertionSort (r := (· ≤ ·)) (l := l)]
  have hsorted := List.pairwise_insertionSort (· ≤ ·) l
  generalize l.insertionSort (· ≤ ·) = s at h hsorted ⊢
  obtain ⟨hi, hget⟩ := List.getElem?_eq_some_iff.mp h
  have hsplit : s = s.take i ++ a :: s.drop (i + 1) := by
    rw [← hget, ← List.drop_eq_getElem_cons hi, List.take_append_drop]
  have htake : (s.take i).length = i := List.length_take_of_le hi.le
  have hdrop : (s.drop (i + 1)).length = s.length - (i + 1) := List.length_drop
  rw [hsplit, List.pairwise_append] at hsorted
  obtain ⟨-, hright, hleft⟩ := hsorted
  rw [List.pairwise_cons] at hright
  have hcount : s.countP (x ≤ ·) =
      (s.take i).countP (x ≤ ·) + (a :: s.drop (i + 1)).countP (x ≤ ·) := by
    conv_lhs => rw [hsplit]
    exact List.countP_append
  rw [hcount]
  constructor
  · intro hx
    have hall : (a :: s.drop (i + 1)).countP (x ≤ ·) = (a :: s.drop (i + 1)).length := by
      rw [List.countP_eq_length]
      intro b hb
      rcases List.mem_cons.mp hb with rfl | hb
      · exact decide_eq_true hx
      · exact decide_eq_true (hx.trans (hright.1 b hb))
    rw [hall, List.length_cons, hdrop]
    omega
  · intro hle
    by_contra hx
    have hnone : (s.take i).countP (x ≤ ·) = 0 := by
      rw [List.countP_eq_zero]
      intro b hb
      rw [decide_eq_true_eq]
      exact fun hxb => hx (hxb.trans (hleft b hb a List.mem_cons_self))
    have hrest : (s.drop (i + 1)).countP (x ≤ ·) ≤ s.length - (i + 1) := hdrop ▸ List.countP_le_length
    rw [hnone, List.countP_cons_of_neg (by simpa using hx)] at hle
    omega

/-! ## The median of the last times -/

section

local instance linearOrderUInt32 : LinearOrder UInt32 where
  le_refl := UInt32.le_refl
  le_trans _ _ _ := UInt32.le_trans
  lt_iff_le_not_ge a b := by
    rw [UInt32.not_le]
    exact ⟨fun h => ⟨UInt32.le_of_lt h, h⟩, And.right⟩
  le_antisymm _ _ := UInt32.le_antisymm
  le_total := UInt32.le_total
  toDecidableLE := inferInstance

variable {times : List UInt32} {t : UInt32}

/-- A list that is not empty has a middle. -/
theorem exists_median (h : times ≠ []) :
    (times.insertionSort (· ≤ ·))[times.length / 2]? = some (medianTimePast times) := by
  have hlt : times.length / 2 < (times.insertionSort (· ≤ ·)).length := by
    rw [List.length_insertionSort]
    exact Nat.div_lt_self (List.length_pos_iff.mpr h) (by decide)
  rw [medianTimePast, List.getElem?_eq_getElem hlt, Option.getD_some]

/-- The median is at least `x` when as many entries are as lie from the middle on. -/
theorem le_median_iff (h : times ≠ []) (x : UInt32) :
    x ≤ medianTimePast times ↔ times.length - times.length / 2 ≤ times.countP (x ≤ ·) :=
  le_insertionSort_iff (exists_median h) x

/-- The median is one of the times. -/
theorem median_mem (h : times ≠ []) : medianTimePast times ∈ times :=
  (List.mem_insertionSort (· ≤ ·)).mp (List.mem_of_getElem? (exists_median h))

/-- A time after the median does not lower it, whether or not the first time is dropped. -/
theorem median_pushTime (h : times ≠ []) (hlen : times.length ≤ 11)
    (ht : medianTimePast times < t) :
    medianTimePast times ≤ medianTimePast (pushTime times t) := by
  have hpos := List.length_pos_iff.mpr h
  have hcount := (le_median_iff h _).mp (le_refl (medianTimePast times))
  have hone : [t].countP (medianTimePast times ≤ ·) = 1 := by
    rw [List.countP_singleton, if_pos (decide_eq_true ht.le)]
  have hne : pushTime times t ≠ [] := by
    rw [pushTime, ← List.length_pos_iff, List.length_drop, List.length_append,
      List.length_singleton]
    omega
  rw [le_median_iff hne, pushTime]
  rcases Nat.lt_or_ge times.length 11 with hlt | hge
  · rw [List.length_append, List.length_singleton, Nat.sub_eq_zero_of_le hlt, List.drop_zero,
      List.countP_append, hone, List.length_append, List.length_singleton]
    omega
  · obtain ⟨first, tail, rfl⟩ := List.exists_cons_of_ne_nil h
    rw [List.length_cons] at hlen hge hcount
    have hdrop : (first :: tail ++ [t]).length - 11 = 1 := by
      simp only [List.length_append, List.length_cons, List.length_nil]
      omega
    rw [hdrop, List.cons_append, List.drop_succ_cons, List.drop_zero, List.countP_append, hone,
      List.length_append, List.length_singleton]
    rw [List.countP_cons] at hcount
    split at hcount <;> omega

/-! ## A list of headers -/

/-- The median of the eleven times up to the `k`-th. -/
def medianAt (times : List UInt32) (k : ℕ) : UInt32 :=
  medianTimePast (lastEleven (times.take (k + 1)))

/-- Every time from the `n + 1`-st on is after the median of the eleven before it. -/
def RisingFrom (n : ℕ) (times : List UInt32) : Prop :=
  ∀ k t, n ≤ k → times[k + 1]? = some t → medianAt times k < t

/-- Every time is after the median of the eleven before it. -/
def Rising (times : List UInt32) : Prop :=
  ∀ k t, times[k + 1]? = some t → medianAt times k < t

theorem lastEleven_ne_nil (h : times ≠ []) : lastEleven times ≠ [] := by
  rw [lastEleven, ← List.length_pos_iff, List.length_drop]
  have := List.length_pos_iff.mpr h
  omega

variable {n : ℕ}

/-- The medians never fall. -/
theorem RisingFrom.mono (h : RisingFrom n times) {k m : ℕ} (hnk : n ≤ k) (hkm : k ≤ m)
    (hm : m < times.length) : medianAt times k ≤ medianAt times m := by
  induction m, hkm using Nat.le_induction with
  | base => exact le_refl _
  | succ m hkm ih =>
    have hget : times[m + 1]? = some times[m + 1] := List.getElem?_eq_getElem hm
    have hne : times.take (m + 1) ≠ [] := by
      rw [← List.length_pos_iff, List.length_take]
      omega
    have hstep := median_pushTime (lastEleven_ne_nil hne)
      (by rw [lastEleven, List.length_drop]; omega) (h m _ (hnk.trans hkm) hget)
    rw [pushTime_lastEleven] at hstep
    refine (ih (Nat.lt_of_succ_lt hm)).trans (hstep.trans (le_of_eq ?_))
    rw [medianAt, List.take_add_one (i := m + 1), hget]
    rfl

/-- Eleven times on, the median is of times that are all after the old one. -/
theorem RisingFrom.eleven (h : RisingFrom n times) {k : ℕ} (hnk : n ≤ k)
    (hk : k + 11 < times.length) : medianAt times k < medianAt times (k + 11) := by
  have hwindow : lastEleven (times.take (k + 11 + 1)) = (times.drop (k + 1)).take 11 := by
    have hstart : k + 11 + 1 - 11 = k + 1 := by omega
    rw [lastEleven, List.length_take_of_le (by omega), hstart, List.drop_take]
    congr 1
    omega
  have hmem : medianAt times (k + 11) ∈ (times.drop (k + 1)).take 11 := by
    rw [← hwindow]
    refine median_mem (lastEleven_ne_nil ?_)
    rw [← List.length_pos_iff, List.length_take]
    omega
  obtain ⟨i, hi⟩ := List.mem_iff_getElem?.mp hmem
  have hi11 : i < 11 := by
    by_contra hge
    rw [List.getElem?_take, if_neg hge] at hi
    cases hi
  rw [List.getElem?_take, if_pos hi11, List.getElem?_drop] at hi
  have hlater := h (k + i) _ (hnk.trans (Nat.le_add_right k i)) (by rw [← hi]; congr 1; omega)
  exact lt_of_le_of_lt (h.mono hnk (Nat.le_add_right k i) (by omega)) hlater

/-- **From the `n`-th on there are no more than `11 * 2^32` times.** -/
theorem RisingFrom.length_le (h : RisingFrom n times) : times.length ≤ n + 11 * 2 ^ 32 := by
  have hge (j : ℕ) (hj : n + 11 * j < times.length) :
      j ≤ (medianAt times (n + 11 * j)).toNat := by
    induction j with
    | zero => exact Nat.zero_le _
    | succ j ih =>
      have hlt := UInt32.lt_iff_toNat_lt.mp (h.eleven (Nat.le_add_right n (11 * j)) hj)
      exact Nat.succ_le_of_lt (lt_of_le_of_lt (ih (by omega)) hlt)
  by_contra hlong
  have hmax := hge (2 ^ 32) (Nat.not_le.mp hlong)
  exact absurd (medianAt times (n + 11 * 2 ^ 32)).toNat_lt (Nat.not_lt.mpr hmax)

/-- **There are no more than `11 * 2^32` times.** -/
theorem Rising.length_le (h : Rising times) : times.length ≤ 11 * 2 ^ 32 := by
  have hfrom : RisingFrom 0 times := fun k t _ hk => h k t hk
  rw [← Nat.zero_add (11 * 2 ^ 32)]
  exact hfrom.length_le

variable {H : Type} [DecidableEq H] {hs : Hashing H} {core : Core} {headers : List Bytes}

/-- The times of headers that keep the rules rise. -/
theorem Rules.rising (h : Rules hs core headers) : Rising (timesOf headers) := by
  intro k t hk
  have hmap : (headers.map headerTime)[k]? = some t := hk
  rw [List.getElem?_map] at hmap
  obtain ⟨header, hheader, rfl⟩ := Option.map_eq_some_iff.mp hmap
  have hpre : headers.take k ++ [header] <+: headers := by
    have htake := List.take_add_one (l := headers) (i := k)
    rw [hheader] at htake
    exact htake ▸ List.take_prefix (k + 1) headers
  have htime := (h.header _ _ hpre).time
  rw [medianAt, timesOf, List.take_succ_cons, ← List.map_take]
  exact htime

/-- Headers that keep the rules are fewer than 11 · 2³². -/
theorem Rules.length_lt (h : Rules hs core headers) : headers.length < 11 * 2 ^ 32 := by
  have hle := h.rising.length_le
  rw [length_timesOf] at hle
  exact hle

end

/-! ## The leaves of a genesis-anchored range -/

section

variable {H : Type} [DecidableEq H] {hs : Hashing H} {core : Core} {zkvm : Zkvm H}
  {selfId : ImageId} {st : RangeState H}

/-- **A genesis-anchored range commits to leaves**: its roots are those of an accumulator with as
many leaves as it says, at every height. -/
theorem RangeProof.commits (hnode : hs.NodeInjective) (h : RangeProof hs core zkvm selfId st)
    (hgenesis : st.isGenesisAnchored hs = .ok ()) :
    ∃ L, st.after.stump.Commits hs.parent L := by
  obtain ⟨hlo, hbefore, -⟩ := isGenesisAnchored_iff.mp hgenesis
  obtain ⟨first, rest, hblocks, hmeets, rfl⟩ := h.exists_blocks
  obtain ⟨hlo', hbefore', -⟩ := foldl_join_front first rest
  rw [hlo'] at hlo
  rw [hbefore'] at hbefore
  obtain ⟨headers, hlen, hhist⟩ := history_of_blocks hblocks hmeets hlo hbefore
  have hfew : rest.length + 1 < 2 ^ 36 := hlen ▸ lt_trans hhist.rules.length_lt (by decide)
  generalize hlast : rest.foldl RangeState.join first = last
  obtain ⟨L, -, hL⟩ := below_of_blocks (f := id) hnode.parent (fun _ _ => rfl)
    (le_max_left 64 last.after.roots.length) hblocks hmeets hbefore (.inr hfew)
  rw [hlast] at hL
  obtain ⟨t, hbelow, hcommits⟩ := hL
  refine ⟨L, .of_rootAt (by rw [← hcommits.numLeaves, hbelow.numLeaves]) fun k => ?_⟩
  rw [← hcommits.rootAt k]
  rcases Nat.lt_or_ge k (max 64 last.after.roots.length) with hk | hk
  · rw [hbelow.rootAt k hk, Option.map_id, id]
  · -- above its last root the range has none, and the count has none either
    have hhigh : 64 ≤ k := (le_max_left _ _).trans hk
    rw [hcommits.rootAt k, Accumulator.peak_of_large hcommits.length_lt hhigh, Accumulator.Stump.rootAt,
      Boundary.stump, List.getElem?_eq_none ((le_max_right _ _).trans hk)]
    rfl

end

end Guest
end Hazync
