import Hazync.Accumulator.ForestCache
import Hazync.Guest.Utreexo

/-!
# The stumps and the forest in lockstep

The bridge keeps a `Forest`, the verifier a `Stump`; the library has one and the guest another.
One run drives the three: an `add` goes to each, and a `delete` hands both stumps the proofs the
forest makes at that moment. Each step keeps all three over one list of leaves (`Synced`), so no
delete is ever rejected. The hash plays no part.

## What a run is for

In use the bridge makes proofs from its forest and the verifiers apply them to their stumps, block
after block, each on what it had after the last. A statement about one delete would need that the
forest and the stump are in step before it, and a run shows that they are. So the run is of the
three together, the proofs are those that the forest makes at that moment, and a step fails if
either stump rejects its delete. `lockstep` says that no step fails.

No property of the hash is used. Whether a stump accepts a proof that the forest has made is a
matter of computing the same nodes from the same leaves; collisions could only make more proofs
pass.
-/

namespace Hazync
namespace Guest

open Accumulator SwapRemove

variable {H : Type} {parent : H → H → H}

/-- The three accumulators of one run. -/
structure Trio (H : Type) where
  library : Stump H
  guest : Stump H
  forest : Forest H

namespace Trio

/-- How many 32-byte hashes a `Vec` holds before it panics: its size is at most `isize::MAX`. -/
def vecCapacity : ℕ := (2 ^ 63 - 1) / 32

/-- Where a run begins: nothing in any of them. -/
def empty : Trio H := { library := Stump.empty, guest := Stump.empty, forest := Forest.new }

/-- What is done to all three. -/
inductive Action (H : Type)
  | add (leaf : H)
  | delete (i : ℕ)

/-- All three are over the leaves of the forest. -/
structure Synced (parent : H → H → H) (t : Trio H) : Prop where
  /-- The bridge's forest, with its cached levels. -/
  kept : t.forest.Kept parent t.forest.leaves
  /-- The stump of the library. -/
  library : t.library.Commits parent t.forest.leaves
  /-- And the guest's own. -/
  guest : t.guest.Commits parent t.forest.leaves

/-- The empty accumulators are of no leaves. -/
theorem Synced.empty : Synced parent (empty : Trio H) := ⟨.new, .empty, .empty⟩

/-- The proof the forest makes of a leaf in range. -/
theorem Synced.prove {t : Trio H} (h : Synced parent t) {i : ℕ}
    (hi : i < t.forest.leaves.length) :
    ∃ p, t.forest.prove i = some p ∧ Located parent t.forest.leaves i p := by
  rw [Forest.prove_of_isCache h.kept.cache]
  exact Reference.naiveProve_located hi h.library.length_lt

variable [DecidableEq H]

/-- One step; `none` is a panic, or a delete that one of the stumps rejects. -/
def step (parent : H → H → H) (t : Trio H) : Action H → Option (Trio H)
  | .add leaf =>
    if t.forest.leaves.length < vecCapacity then
      some { library := t.library.add parent leaf, guest := t.guest.add parent leaf,
             forest := t.forest.add parent leaf }
    else none
  | .delete i => do
    let proofI ← t.forest.prove i
    let proofLast ← t.forest.prove (t.forest.leaves.length - 1)
    let (okLibrary, library) ← t.library.delete parent (UInt64.ofNat i) proofI proofLast
    let (okGuest, guest) ← Stump.delete parent t.guest (UInt64.ofNat i) proofI proofLast
    let forest ← t.forest.delete parent i
    if okLibrary ∧ okGuest then some { library, guest, forest } else none

/-- The steps one after the other. -/
def run (parent : H → H → H) (t : Trio H) (actions : List (Action H)) : Option (Trio H) :=
  actions.foldlM (step parent) t

/-- From `n` leaves, every delete is in range and no add overflows the leaf vector. -/
def InRange : ℕ → List (Action H) → Prop
  | _, [] => True
  | n, .add _ :: actions => n < vecCapacity ∧ InRange (n + 1) actions
  | n, .delete i :: actions => i < n ∧ InRange (n - 1) actions

/-- An addition keeps them together. -/
theorem Synced.add {t : Trio H} (h : Synced parent t) (leaf : H)
    (hroom : t.forest.leaves.length < vecCapacity) :
    ∃ t', step parent t (.add leaf) = some t' ∧ Synced parent t' ∧
      t'.forest.leaves.length = t.forest.leaves.length + 1 := by
  have hlen : t.forest.leaves.length + 1 < 2 ^ 64 := by
    have : vecCapacity < 2 ^ 63 := by decide
    omega
  have hkept := h.kept.add leaf
  refine ⟨_, if_pos hroom, ⟨?_, ?_, ?_⟩, ?_⟩
  · exact ⟨rfl, hkept.cache⟩
  · rw [hkept.leaves]
    exact h.library.add leaf hlen
  · rw [hkept.leaves]
    exact h.guest.add leaf hlen
  · rw [hkept.leaves, List.length_append, List.length_singleton]

/-- So does a delete, with the proofs that the forest makes. -/
theorem Synced.delete {t : Trio H} (h : Synced parent t) {i : ℕ}
    (hi : i < t.forest.leaves.length) :
    ∃ t', step parent t (.delete i) = some t' ∧ Synced parent t' ∧
      t'.forest.leaves.length = t.forest.leaves.length - 1 := by
  obtain ⟨p, hp, hlp⟩ := h.prove hi
  obtain ⟨q, hq, hlq⟩ := h.prove (i := t.forest.leaves.length - 1) (by omega)
  have h64 := h.library.length_lt
  have hword : (UInt64.ofNat i).toNat = i := by
    rw [UInt64.toNat_ofNat']
    exact Nat.mod_eq_of_lt (by omega)
  rw [← hword] at hlp
  obtain ⟨library, hlib, hlibC⟩ := h.library.delete hlp fun _ => hlq
  obtain ⟨guest, hguest, hguestC⟩ := Stump.delete_of_located h.guest hlp fun _ => hlq
  rw [hword] at hlibC hguestC
  have hrel := h.kept.delete i
  rw [ListModel.delete, if_pos hi] at hrel
  cases hforest : t.forest.delete parent i with
  | none => rw [hforest] at hrel; cases hrel
  | some forest =>
    rw [hforest] at hrel
    cases hrel with
    | some hkept =>
      refine ⟨{ library, guest, forest }, ?_, ⟨?_, ?_, ?_⟩, ?_⟩
      · simp [step, hp, hq, hlib, hguest, hforest]
      · exact ⟨rfl, hkept.cache⟩
      · rw [hkept.leaves]
        exact hlibC
      · rw [hkept.leaves]
        exact hguestC
      · rw [hkept.leaves, length_swapRemove]

/-- A run of in-range actions is never rejected and keeps the three together. -/
theorem Synced.run {t : Trio H} (h : Synced parent t) {actions : List (Action H)}
    (hrange : InRange t.forest.leaves.length actions) :
    ∃ t', run parent t actions = some t' ∧ Synced parent t' := by
  induction actions generalizing t with
  | nil => exact ⟨t, rfl, h⟩
  | cons a actions ih =>
    obtain ⟨t₁, hstep, hsync, hrest⟩ : ∃ t₁, step parent t a = some t₁ ∧ Synced parent t₁ ∧
        InRange t₁.forest.leaves.length actions := by
      cases a with
      | add leaf =>
        obtain ⟨t₁, hstep, hsync, hlen⟩ := h.add leaf hrange.1
        exact ⟨t₁, hstep, hsync, hlen ▸ hrange.2⟩
      | delete i =>
        obtain ⟨t₁, hstep, hsync, hlen⟩ := h.delete hrange.1
        exact ⟨t₁, hstep, hsync, hlen ▸ hrange.2⟩
    obtain ⟨t', hrun, hsync'⟩ := ih hsync hrest
    refine ⟨t', ?_, hsync'⟩
    rw [Trio.run, List.foldlM_cons, hstep]
    exact hrun

/-- **The stumps follow the forest.** From empty, along any adds and in-range deletes with the
forest's own proofs, both stumps accept every delete, count the forest's leaves, have its roots
up to trailing `None`, and verify the proof it makes of every leaf. -/
theorem lockstep (parent : H → H → H) {actions : List (Action H)} (hrange : InRange 0 actions) :
    ∃ t, run parent empty actions = some t ∧
      t.library.numLeaves.toNat = t.forest.leaves.length ∧
      t.guest.numLeaves.toNat = t.forest.leaves.length ∧
      t.forest.roots.map normalize = some t.library.normalized ∧
      t.forest.roots.map normalize = some t.guest.normalized ∧
      ∀ k < t.forest.leaves.length, ∃ p, t.forest.prove k = some p ∧
        t.forest.leaves[k]? = some p.leaf ∧
        t.library.verify parent p = true ∧ t.guest.verify parent p = true := by
  obtain ⟨t, hrun, hsync⟩ :=
    (Synced.empty : Synced parent (empty : Trio H)).run hrange
  refine ⟨t, hrun, hsync.library.numLeaves, hsync.guest.numLeaves, ?_, ?_, fun k hk => ?_⟩
  · rw [Forest.roots_of_isCache hsync.kept.cache]
    exact hsync.library.roots
  · rw [Forest.roots_of_isCache hsync.kept.cache]
    exact hsync.guest.roots
  · obtain ⟨p, hp, hlocated⟩ := hsync.prove hk
    exact ⟨p, hp, hlocated.leaf, hlocated.verify hsync.library, hlocated.verify hsync.guest⟩

theorem lockstep_three :
    ∃ t, run (fun a b : ℕ => 2 ^ a * 3 ^ b) empty
      [.add 0, .add 1, .add 2, .delete 0, .add 1, .delete 2] = some t ∧
      t.guest.numLeaves.toNat = t.forest.leaves.length := by
  obtain ⟨t, hrun, -, hguest, -⟩ := lockstep (fun a b : ℕ => 2 ^ a * 3 ^ b)
    (show InRange 0 [.add 0, .add 1, .add 2, .delete 0, .add 1, .delete 2] by
      simp [InRange, vecCapacity])
  exact ⟨t, hrun, hguest⟩

end Trio
end Guest
end Hazync
