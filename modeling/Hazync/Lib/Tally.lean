import Mathlib.Algebra.Order.BigOperators.Group.List
import Mathlib.Algebra.GroupWithZero.Nat
import Mathlib.Algebra.Order.Group.Nat
import Mathlib.Data.List.Count
import Mathlib.Tactic.Common

/-!
# What a list of holders holds

The counts of one element over all holders, and what a step of one holder does to them.

Work that is handed out is held by several parties at a time, each with a list of its own. That
nothing is lost and nothing is there twice is then a statement on the counts over all lists. A step
changes the list of one party, or moves an element from one to another, and `tally_set` says what
that does to the counts.
-/

namespace Tally

variable {α β : Type*} [DecidableEq β] (held : α → List β) {l : List α} {k : ℕ} {a b : α} {x : β}

/-- How often the holders hold `x`. -/
def tally (l : List α) (x : β) : ℕ := (l.map fun a => (held a).count x).sum

@[simp] theorem tally_nil : tally held [] x = 0 := rfl

/-- A holder more. -/
theorem tally_append_singleton : tally held (l ++ [a]) x = tally held l x + (held a).count x := by
  simp [tally]

/-- One holder's list is replaced. -/
theorem tally_set (h : l[k]? = some a) :
    tally held (l.set k b) x + (held a).count x = tally held l x + (held b).count x := by
  induction l generalizing k with
  | nil => exact absurd h (by simp)
  | cons c l ih =>
    cases k with
    | zero =>
      obtain rfl := Option.some.inj h
      simp only [tally, List.set_cons_zero, List.map_cons, List.sum_cons]
      omega
    | succ k =>
      have hl := ih h
      simp only [tally, List.set_cons_succ, List.map_cons, List.sum_cons] at hl ⊢
      omega

/-- What one holds, all of them hold. -/
theorem le_tally (h : l[k]? = some a) : (held a).count x ≤ tally held l x := by
  have hset := tally_set held (b := a) (x := x) h
  obtain ⟨hk, hget⟩ := List.getElem?_eq_some_iff.mp h
  have hmem : (held a).count x ∈ l.map fun a => (held a).count x :=
    List.mem_map_of_mem (hget ▸ List.getElem_mem hk)
  exact List.single_le_sum (fun _ _ => Nat.zero_le _) _ hmem

/-- What is counted is held by someone. -/
theorem exists_mem_of_tally_pos (h : 0 < tally held l x) : ∃ a ∈ l, x ∈ held a := by
  induction l with
  | nil => exact absurd h (Nat.lt_irrefl 0)
  | cons c l ih =>
    by_cases hc : x ∈ held c
    · exact ⟨c, List.mem_cons_self, hc⟩
    · have hl : 0 < tally held l x := by
        simpa [tally, List.count_eq_zero_of_not_mem hc] using h
      obtain ⟨a, ha, hx⟩ := ih hl
      exact ⟨a, List.mem_cons_of_mem _ ha, hx⟩

end Tally
