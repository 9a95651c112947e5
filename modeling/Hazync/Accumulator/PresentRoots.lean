import Mathlib.Data.List.ReduceOption
import Hazync.Accumulator.Reference

/-!
# The roots without the empty slots

Dropping the empty slots of a root vector drops the heights the roots stand at. Nothing is lost by
it where the leaf count is known: the count alone says at which heights there is a root
(`peak_isSome`), so the roots that are left can be put back.

The C structure that a verifier reads a state from has the roots in this form, a count and the
present roots one after the other, not a vector with holes. `eq_of_present_eq` says that this still
binds the leaves.
-/

namespace Hazync
namespace Accumulator

open MerkleForest

variable {H ι : Type}

/-- Reading off the values is one-to-one on functions with values at the same places. -/
theorem filterMap_inj {l : List ι} {f g : ι → Option H}
    (hshape : ∀ k ∈ l, (f k).isSome = (g k).isSome) (h : l.filterMap f = l.filterMap g) :
    ∀ k ∈ l, f k = g k := by
  induction l with
  | nil => exact fun k hk => absurd hk List.not_mem_nil
  | cons a l ih =>
    have ha := hshape a List.mem_cons_self
    have hrest := fun k hk => hshape k (List.mem_cons_of_mem a hk)
    cases hf : f a with
    | none =>
      rw [hf] at ha
      have hg : g a = none := Option.not_isSome_iff_eq_none.mp (by rw [← ha]; exact Bool.false_ne_true)
      rw [List.filterMap_cons_none hf, List.filterMap_cons_none hg] at h
      exact List.forall_mem_cons.mpr ⟨hf.trans hg.symm, ih hrest h⟩
    | some x =>
      rw [hf] at ha
      obtain ⟨y, hg⟩ := Option.isSome_iff_exists.mp ha.symm
      rw [List.filterMap_cons_some hf, List.filterMap_cons_some hg] at h
      obtain ⟨rfl, htail⟩ := List.cons.inj h
      exact List.forall_mem_cons.mpr ⟨hf.trans hg.symm, ih hrest htail⟩

/-- The values of a vector, from what it holds at each height. -/
theorem reduceOption_eq_filterMap {v : List (Option H)} {f : ℕ → Option H} {m : ℕ}
    (hv : ∀ k : ℕ, v[k]?.join = f k) (hm : ∀ k, m ≤ k → f k = none) :
    v.reduceOption = (List.range m).filterMap f := by
  induction v generalizing f m with
  | nil =>
    symm
    rw [List.reduceOption_nil, List.filterMap_eq_nil_iff]
    exact fun k _ => (hv k).symm
  | cons x v ih =>
    have hx : x = f 0 := hv 0
    have hrest (k : ℕ) : v[k]?.join = f (k + 1) := hv (k + 1)
    cases m with
    | zero =>
      have hnone : x = none := hx.trans (hm 0 le_rfl)
      rw [hnone, List.reduceOption_cons_of_none]
      have hih := ih hrest (m := 0) fun k _ => hm (k + 1) (Nat.zero_le _)
      exact hih
    | succ m =>
      have hih := ih hrest fun k hk => hm (k + 1) (Nat.succ_le_succ hk)
      rw [List.range_succ_eq_map, List.filterMap_cons, List.filterMap_map, ← hx]
      cases x with
      | none => rw [List.reduceOption_cons_of_none, hih]; rfl
      | some x => rw [List.reduceOption_cons_of_some, hih]; rfl

section

variable {parent : H → H → H} {L M : List H}

theorem peak_of_large (hL : L.length < 2 ^ 64) {k : ℕ} (hk : 64 ≤ k) : peak parent k L = none := by
  rw [← Option.not_isSome_iff_eq_none, peak_isSome, Nat.div_eq_of_lt]
  · decide
  · exact lt_of_lt_of_le hL (Nat.pow_le_pow_right (by decide) hk)

/-- The non-empty roots over `L`, lowest first. -/
theorem reduceOption_naiveRoots (hL : L.length < 2 ^ 64) {v : List (Option H)}
    (hv : Reference.naiveRoots parent L = some v) :
    v.reduceOption = (List.range 64).filterMap fun k => peak parent k L := by
  obtain ⟨w, hw, hpeak⟩ := Reference.naiveRoots_spec parent L
  obtain rfl := Option.some.inj (hv.symm.trans hw)
  exact reduceOption_eq_filterMap (hpeak hL) fun k => peak_of_large hL

/-- **The count and the non-empty roots bind the leaves**, though not the heights. The heights are
    the bits of the count, so two lists of one length have their roots at the same heights, and
    there `naive_roots` decides. -/
theorem eq_of_present_eq (hinj : PairInjective parent) (hL : L.length < 2 ^ 64)
    (hlen : L.length = M.length)
    (h : (Reference.naiveRoots parent L).map List.reduceOption =
      (Reference.naiveRoots parent M).map List.reduceOption) : L = M := by
  obtain ⟨v, hv, -⟩ := Reference.naiveRoots_spec parent L
  obtain ⟨w, hw, -⟩ := Reference.naiveRoots_spec parent M
  have hM : M.length < 2 ^ 64 := hlen ▸ hL
  rw [hv, hw, Option.map_some, Option.map_some] at h
  have hpresent := Option.some.inj h
  rw [reduceOption_naiveRoots hL hv, reduceOption_naiveRoots hM hw] at hpresent
  have hshape (k : ℕ) : (peak parent k L).isSome = (peak parent k M).isSome := by
    rw [Bool.eq_iff_iff, peak_isSome, peak_isSome, hlen]
  refine eq_of_peak_eq hinj hlen fun k => ?_
  rcases Nat.lt_or_ge k 64 with hk | hk
  · exact filterMap_inj (fun k _ => hshape k) hpresent k (List.mem_range.mpr hk)
  · rw [peak_of_large hL hk, peak_of_large hM hk]

theorem reduceOption_normalize (v : List (Option H)) : (normalize v).reduceOption = v.reduceOption := by
  have hnone (k : ℕ) (hk : v.length ≤ k) : v[k]?.join = none := by
    rw [List.getElem?_eq_none hk]
    rfl
  rw [reduceOption_eq_filterMap (join_getElem?_normalize v) hnone,
    reduceOption_eq_filterMap (fun _ => rfl) hnone]

end

end Accumulator
end Hazync
