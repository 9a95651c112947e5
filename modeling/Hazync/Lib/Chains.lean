import Mathlib.Data.Option.Basic
import Mathlib.Logic.Function.Basic
import Mathlib.Logic.Relation
import Mathlib.Order.Basic
import Mathlib.Tactic.Common

/-!
# Chains of a partial function

Each point has at most one next point. Where the chains are short enough, there is no cycle, every
chain has an end, and points that hang together have the same one.

A new edge, from a point that was an end, joins the chains that end there to the one it leads to.

## How the two walks are related

`walk` goes exactly `n` steps and has no value where the chain is shorter; it is what the statements
are in terms of. `follow` goes up to `n` steps and stops where the chain ends; it is what a program
does that allows for so many. Where the chains are short, following with the bound as fuel always
gets to an end, and each of the two can be had from the other.

## Adding edges

A point that has a next point keeps it; so the only change is that an end gets an edge. There are
two ways for this to go wrong. The edge may close a cycle, which it does where the chain from `new`
leads back to `old`. Or it may make a chain too long: one that came in at `old` now goes on along
the chain from `new`. The first is excluded by looking where `new` leads, the second is `Fits`, a
condition on the chains as they were. Under both, the chains stay short, and this is as much as can
be hoped for (`Short.fits`).
-/

namespace Chains

variable {α : Type*} (next : α → Option α)

/-- `n` steps along the chain, where it goes that far. -/
def walk : ℕ → α → Option α
  | 0, a => some a
  | n + 1, a => (next a).bind (walk n)

/-- As many as `n` steps along the chain. -/
def follow : ℕ → α → α
  | 0, a => a
  | n + 1, a => (next a).elim a (follow n)

/-- No chain has more than `d` edges. -/
def Short (d : ℕ) : Prop := ∀ a n b, walk next n a = some b → n ≤ d

def Acyclic : Prop := ∀ a n, walk next (n + 1) a ≠ some a

/-- Some edges join the points, whichever way they go. -/
def Connected : α → α → Prop := Relation.EqvGen fun a b => next a = some b

variable {next} {a b c : α} {m n d : ℕ}

theorem walk_succ (n : ℕ) (a : α) : walk next (n + 1) a = (next a).bind (walk next n) := rfl

/-- A walk in two stretches. -/
theorem walk_add (m n : ℕ) (a : α) : walk next (m + n) a = (walk next m a).bind (walk next n) := by
  induction m generalizing a with
  | zero => simp [walk]
  | succ m ih =>
    rw [Nat.succ_add, walk_succ, walk_succ, Option.bind_assoc]
    congr 1
    funext b
    exact ih b

/-- Two walks, one after the other. -/
theorem walk_trans (hab : walk next m a = some b) (hbc : walk next n b = some c) :
    walk next (m + n) a = some c := by
  rw [walk_add, hab]
  exact hbc

/-- A step more, at the end. -/
theorem walk_snoc (hab : walk next n a = some b) (hbc : next b = some c) :
    walk next (n + 1) a = some c := by
  apply walk_trans hab
  rw [walk_succ, hbc]
  rfl

/-- A chain that ends at `a` goes no further. -/
theorem walk_of_end (ha : next a = none) (h : walk next n a = some b) : n = 0 ∧ a = b := by
  cases n with
  | zero => exact ⟨rfl, Option.some.inj h⟩
  | succ n =>
    rw [walk_succ, ha] at h
    cases h

/-- More edges, more walks. -/
theorem walk_mono {next' : α → Option α} (hnext : ∀ a b, next a = some b → next' a = some b)
    (h : walk next n a = some b) : walk next' n a = some b := by
  induction n generalizing a with
  | zero => exact h
  | succ n ih =>
    rw [walk_succ] at h ⊢
    obtain ⟨c, hc, hcb⟩ := Option.bind_eq_some_iff.mp h
    rw [hnext a c hc]
    exact ih hcb

/-- Following gets to the end, or as far as it may go. -/
theorem follow_spec (next : α → Option α) (n : ℕ) (a : α) :
    ∃ m ≤ n, walk next m a = some (follow next n a) ∧ (next (follow next n a) = none ∨ m = n) := by
  induction n generalizing a with
  | zero => exact ⟨0, Nat.le_refl 0, rfl, .inr rfl⟩
  | succ n ih =>
    unfold follow
    cases hnext : next a with
    | none => exact ⟨0, Nat.zero_le _, rfl, .inl hnext⟩
    | some b =>
      obtain ⟨m, hm, hwalk, hend⟩ := ih b
      refine ⟨m + 1, Nat.succ_le_succ hm, ?_, ?_⟩
      · rw [walk_succ, hnext]
        exact hwalk
      · exact hend.imp_right fun h => by rw [h]

/-- A walk to an end is what following finds. -/
theorem follow_of_walk (h : walk next m a = some b) (hb : next b = none) (hmn : m ≤ n) :
    follow next n a = b := by
  induction m generalizing a n with
  | zero =>
    obtain rfl := Option.some.inj h
    cases n with
    | zero => rfl
    | succ n =>
      unfold follow
      rw [hb]
      rfl
  | succ m ih =>
    cases n with
    | zero => exact absurd hmn (Nat.not_succ_le_zero m)
    | succ n =>
      rw [walk_succ] at h
      obtain ⟨c, hc, hcb⟩ := Option.bind_eq_some_iff.mp h
      unfold follow
      rw [hc]
      exact ih hcb (Nat.le_of_succ_le_succ hmn)

/-! ## Short chains -/

/-- Around a cycle there is a walk of every length. -/
theorem Short.acyclic (h : Short next d) : Acyclic next := by
  intro a n hcycle
  have hround : ∀ k, walk next (k * (n + 1)) a = some a := by
    intro k
    induction k with
    | zero => rw [Nat.zero_mul]; rfl
    | succ k ih =>
      rw [Nat.succ_mul]
      exact walk_trans ih hcycle
  have hle := h a _ a (hround (d + 1))
  have hmul : (d + 1) * 1 ≤ (d + 1) * (n + 1) := Nat.mul_le_mul_left _ (Nat.le_add_left 1 n)
  omega

/-- Where chains are short, following gets to an end. -/
theorem Short.follow_end (h : Short next d) (a : α) : next (follow next d a) = none := by
  obtain ⟨m, -, hwalk, hend⟩ := follow_spec next d a
  rcases hend with hend | rfl
  · exact hend
  · by_contra hsome
    obtain ⟨b, hb⟩ := Option.ne_none_iff_exists'.mp hsome
    have hle := h a _ b (walk_snoc hwalk hb)
    omega

/-- One edge further along, the end is the same. -/
theorem Short.follow_eq (h : Short next d) (hab : next a = some b) :
    follow next d a = follow next d b := by
  obtain ⟨m, -, hwalk, -⟩ := follow_spec next d b
  have hlong : walk next (m + 1) a = some (follow next d b) := by
    rw [walk_succ, hab]
    exact hwalk
  exact follow_of_walk hlong (h.follow_end b) (h a _ _ hlong)

/-- Points that hang together have the same end. -/
theorem Short.follow_of_connected (h : Short next d) (hab : Connected next a b) :
    follow next d a = follow next d b := by
  induction hab with
  | rel a b hnext => exact h.follow_eq hnext
  | refl a => rfl
  | symm a b _ ih => exact ih.symm
  | trans a b c _ _ hab hbc => exact hab.trans hbc

/-- Where following always gets to an end, the chains are short. -/
theorem short_of_follow (hend : ∀ a b, next a = some b → next (follow next d a) = none) :
    Short next d := by
  intro a n b hwalk
  by_contra hlong
  obtain ⟨m, hm, hfar, hlast⟩ := follow_spec next d a
  obtain ⟨k, hk⟩ : ∃ k, n = m + (k + 1) := ⟨n - m - 1, by omega⟩
  rw [hk, walk_add, hfar, Option.bind_some, walk_succ] at hwalk
  have hnone : next (follow next d a) = none := by
    cases hfirst : next a with
    | some c => exact hend a c hfirst
    | none =>
      obtain ⟨rfl, heq⟩ := walk_of_end hfirst hfar
      rw [← heq]
      exact hfirst
  rw [hnone] at hwalk
  cases hwalk

/-! ## A new edge -/

variable [DecidableEq α] {old new : α}

/-- The walks that there were go on as they did. -/
theorem walk_update_of_walk (hold : next old = none) (h : walk next n a = some b) :
    walk (Function.update next old (some new)) n a = some b := by
  apply walk_mono _ h
  intro a b hab
  have hne : a ≠ old := by
    intro heq
    rw [heq, hold] at hab
    cases hab
  rw [Function.update_of_ne hne]
  exact hab

/-- Along the new edge, or not. -/
theorem walk_update (hold : next old = none) (hback : ∀ j, walk next j new ≠ some old) :
    walk (Function.update next old (some new)) n a = some b ↔ walk next n a = some b ∨
      ∃ i j, i + 1 + j = n ∧ walk next i a = some old ∧ walk next j new = some b := by
  induction n generalizing a with
  | zero =>
    refine ⟨.inl, ?_⟩
    rintro (h | ⟨i, j, hij, -⟩)
    · exact h
    · omega
  | succ n ih =>
    rw [walk_succ, walk_succ]
    by_cases ha : a = old
    · -- the walk from `new` does not come back here
      rw [ha, Function.update_self, hold, Option.bind_some, ih]
      constructor
      · rintro (h | ⟨i, -, -, hi, -⟩)
        · exact .inr ⟨0, n, by omega, rfl, h⟩
        · exact absurd hi (hback i)
      · rintro (h | ⟨i, j, hij, hi, hj⟩)
        · cases h
        · obtain ⟨rfl, -⟩ := walk_of_end hold hi
          obtain rfl : j = n := by omega
          exact .inl hj
    · rw [Function.update_of_ne ha]
      -- the walk ends here, or goes on from the next one
      cases hnext : next a with
      | none =>
        constructor
        · intro h
          cases h
        · rintro (h | ⟨i, j, hij, hi, hj⟩)
          · cases h
          · exact absurd (walk_of_end hnext hi).2 ha
      | some c =>
        rw [Option.bind_some, Option.bind_some, ih]
        apply or_congr_right
        constructor
        · rintro ⟨i, j, hij, hi, hj⟩
          refine ⟨i + 1, j, by omega, ?_, hj⟩
          rw [walk_succ, hnext]
          exact hi
        · rintro ⟨i, j, hij, hi, hj⟩
          cases i with
          | zero => exact absurd (Option.some.inj hi) ha
          | succ i =>
            rw [walk_succ, hnext] at hi
            exact ⟨i, j, by omega, hi, hj⟩

/-- The chains through the new edge have at most `d` edges. -/
def Fits (next : α → Option α) (d : ℕ) (old new : α) : Prop :=
  ∀ i a j b, walk next i a = some old → walk next j new = some b → i + 1 + j ≤ d

/-- The chains stay short where those through the new edge are. -/
theorem Short.update (h : Short next d) (hold : next old = none) (hback : follow next d new ≠ old)
    (hfits : Fits next d old new) : Short (Function.update next old (some new)) d := by
  have hno : ∀ j, walk next j new ≠ some old := by
    intro j hj
    exact hback (follow_of_walk hj hold (h new j old hj))
  intro a n b hwalk
  rcases (walk_update hold hno).mp hwalk with hwalk | ⟨i, j, rfl, hi, hj⟩
  · exact h a n b hwalk
  · exact hfits i a j b hi hj

/-- The chains through the new edge are short where all of them are. -/
theorem Short.fits (hold : next old = none) (h : Short (Function.update next old (some new)) d) :
    Fits next d old new := by
  intro i a j b hi hj
  have hedge := walk_snoc (walk_update_of_walk hold hi) (Function.update_self old (some new) next)
  exact h a _ b (walk_trans hedge (walk_update_of_walk hold hj))

end Chains
