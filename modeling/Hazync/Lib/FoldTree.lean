import Mathlib.Data.List.Chain
import Mathlib.Data.Option.Basic
import Mathlib.Tactic.Common

/-!
# Trees of a partial join

A join that is defined where two pieces meet at a seam can be applied along any binary tree. When
the result of a join has the left seam of its left piece and the right seam of its right piece,
and joining is associative where it is defined, the shape of the tree does not matter: the tree is
defined exactly when all adjacent leaves meet, and its value is that of the leaves in order.

## Partial joins

What is joined may be anything that has two ends: intervals, proofs of ranges, segments. A join of
two pieces is defined where the right end of the one meets the left end of the other, and what comes
out has the outer two ends. So a tree of joins succeeds only where all leaves meet their neighbours,
and this has nothing to do with the shape of the tree. `Seams` has the two laws on ends, and
associativity.

The join of a program may fail for other reasons too, and may not be associative on values that it
can never be given. Hence `Seamed`, which relates a partial function to such a join on a set `P` of
good pieces that is closed under joining. The main result is then an equivalence. A tree over good
pieces has a value exactly where the leaves meet one by one, and the value is that of joining them
from the left.
-/

/-- A binary tree of joins. -/
inductive FoldTree (α : Type*)
  | leaf (a : α)
  | node (l r : FoldTree α)

namespace FoldTree

variable {α : Type*}

/-- The pieces at the leaves, from left to right. -/
def leaves : FoldTree α → List α
  | leaf a => [a]
  | node l r => l.leaves ++ r.leaves

/-- The joins along the tree; `none` when one of them is undefined. -/
def eval (f : α → α → Option α) : FoldTree α → Option α
  | leaf a => some a
  | node l r => do
    let a ← l.eval f
    let b ← r.eval f
    f a b

/-- Joins have the seams of their ends, and are associative. -/
structure Seams (Meets : α → α → Prop) (join : α → α → α) : Prop where
  /-- On its left a join has the seam of its left end. -/
  left : ∀ {a b c}, Meets a (join b c) ↔ Meets a b
  /-- On its right that of its right end. -/
  right : ∀ {a b c}, Meets (join a b) c ↔ Meets b c
  assoc : ∀ a b c, join (join a b) c = join a (join b c)

/-- On the pieces `P`, `f` is `join` where they meet. -/
structure Seamed (f : α → α → Option α) (P : α → Prop) (Meets : α → α → Prop)
    (join : α → α → α) : Prop extends Seams Meets join where
  eq_some : ∀ {a b c}, P a → P b → (f a b = some c ↔ Meets a b ∧ c = join a b)
  closed : ∀ {a b}, P a → P b → Meets a b → P (join a b)

/-- There is at least one. -/
theorem exists_leaves (t : FoldTree α) : ∃ a as, t.leaves = a :: as := by
  induction t with
  | leaf a => exact ⟨a, [], rfl⟩
  | node l r ihl _ =>
    obtain ⟨a, as, h⟩ := ihl
    exact ⟨a, as ++ r.leaves, by rw [leaves, h, List.cons_append]⟩

variable {f : α → α → Option α} {P : α → Prop} {Meets : α → α → Prop} {join : α → α → α}

/-- Joining from the left is joining the first piece to the rest. -/
theorem Seams.join_foldl (h : Seams Meets join) (a b : α) (cs : List α) :
    cs.foldl join (join a b) = join a (cs.foldl join b) := by
  induction cs generalizing b with
  | nil => rfl
  | cons c cs ih => rw [List.foldl_cons, h.assoc, ih, List.foldl_cons]

/-- The right seam of a run of joins is that of its last piece. -/
theorem Seams.meets_foldl_right (h : Seams Meets join) {a b : α} {as : List α} :
    Meets (as.foldl join a) b ↔ ∀ x ∈ (a :: as).getLast?, Meets x b := by
  induction as generalizing a with
  | nil => simp
  | cons c cs ih =>
    rw [List.foldl_cons, ih, List.getLast?_cons_cons]
    cases cs with
    | nil => simpa using h.right
    | cons d ds => rw [List.getLast?_cons_cons, List.getLast?_cons_cons]

/-- The left seam of a run of joins is that of its first piece. -/
theorem Seams.meets_foldl_left (h : Seams Meets join) {a b : α} {bs : List α} :
    Meets a (bs.foldl join b) ↔ Meets a b := by
  induction bs generalizing b with
  | nil => exact Iff.rfl
  | cons c cs ih => rw [List.foldl_cons, ih, h.left]

/-- Two runs of joins meet where the one ends and the other begins. -/
theorem Seams.isChain_append (h : Seams Meets join) (a b : α) (as bs : List α) :
    ((a :: as) ++ b :: bs).IsChain Meets ↔ (a :: as).IsChain Meets ∧ (b :: bs).IsChain Meets ∧
      Meets (as.foldl join a) (bs.foldl join b) := by
  rw [List.isChain_append, h.meets_foldl_left, h.meets_foldl_right]
  simp

/-- A run of joins in two stretches. -/
theorem Seams.join_append (h : Seams Meets join) (a b : α) (as bs : List α) :
    (as ++ b :: bs).foldl join a = join (as.foldl join a) (bs.foldl join b) := by
  rw [List.foldl_append, List.foldl_cons, h.join_foldl]

/-- Joining good pieces that meet makes a good piece. -/
theorem Seamed.closed_foldl (h : Seamed f P Meets join) {a : α} {as : List α}
    (hP : ∀ x ∈ a :: as, P x) (hchain : (a :: as).IsChain Meets) : P (as.foldl join a) := by
  induction as generalizing a with
  | nil => exact hP a List.mem_cons_self
  | cons c cs ih =>
    obtain ⟨hmeets, htail⟩ := List.isChain_cons_cons.mp hchain
    rw [List.forall_mem_cons, List.forall_mem_cons] at hP
    obtain ⟨ha, hc, hcs⟩ := hP
    refine ih (List.forall_mem_cons.mpr ⟨h.closed ha hc hmeets, hcs⟩) ?_
    cases cs with
    | nil => exact List.isChain_singleton _
    | cons d ds =>
      obtain ⟨hcd, hds⟩ := List.isChain_cons_cons.mp htail
      exact List.isChain_cons_cons.mpr ⟨h.right.mpr hcd, hds⟩

/-- **The shape of the tree does not matter.** -/
theorem Seamed.eval_eq_some (h : Seamed f P Meets join) {t : FoldTree α} {a : α} {as : List α}
    (ht : t.leaves = a :: as) (hP : ∀ x ∈ t.leaves, P x) {c : α} :
    t.eval f = some c ↔ t.leaves.IsChain Meets ∧ c = as.foldl join a := by
  induction t generalizing a as c with
  | leaf b =>
    cases ht
    rw [eval, leaves, Option.some_inj]
    exact ⟨fun hc => ⟨List.isChain_singleton _, hc.symm⟩, fun hc => hc.2.symm⟩
  | node l r ihl ihr =>
    obtain ⟨b, bs, hl⟩ := l.exists_leaves
    obtain ⟨d, ds, hr⟩ := r.exists_leaves
    have hPl : ∀ x ∈ l.leaves, P x := fun x hx => hP x (List.mem_append_left _ hx)
    have hPr : ∀ x ∈ r.leaves, P x := fun x hx => hP x (List.mem_append_right _ hx)
    have hsplit : a = b ∧ as = bs ++ d :: ds := by
      rw [leaves, hl, hr, List.cons_append, List.cons.injEq] at ht
      exact ⟨ht.1.symm, ht.2.symm⟩
    obtain ⟨rfl, rfl⟩ := hsplit
    replace ihl {x : α} := ihl hl hPl (c := x)
    replace ihr {x : α} := ihr hr hPr (c := x)
    rw [hl] at hPl
    rw [hr] at hPr
    simp only [hl] at ihl
    simp only [hr] at ihr
    rw [leaves, hl, hr, h.isChain_append, h.join_append]
    constructor
    · intro he
      obtain ⟨x, hx, he⟩ := Option.bind_eq_some_iff.mp he
      obtain ⟨y, hy, he⟩ := Option.bind_eq_some_iff.mp he
      obtain ⟨hchainl, rfl⟩ := ihl.mp hx
      obtain ⟨hchainr, rfl⟩ := ihr.mp hy
      obtain ⟨hmeets, rfl⟩ :=
        (h.eq_some (h.closed_foldl hPl hchainl) (h.closed_foldl hPr hchainr)).mp he
      exact ⟨⟨hchainl, hchainr, hmeets⟩, rfl⟩
    · rintro ⟨⟨hchainl, hchainr, hmeets⟩, rfl⟩
      rw [eval, ihl.mpr ⟨hchainl, rfl⟩, ihr.mpr ⟨hchainr, rfl⟩]
      exact (h.eq_some (h.closed_foldl hPl hchainl) (h.closed_foldl hPr hchainr)).mpr
        ⟨hmeets, rfl⟩

end FoldTree
