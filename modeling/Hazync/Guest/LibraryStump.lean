import Hazync.Guest.NoPanic

/-!
# The guest's accumulator against the library's

The guest's `delete` guards with pins, the library's with the shape of a rightmost path, and in
another order. For any roots and leaf count, reachable or not, what the guest accepts the library
accepts, with one result. `add` and `verify` are written here once more as the guest has them, loop
by loop, and agree with the library's on every input.

## Two crates, one accumulator

The repository has the accumulator twice, in the library and in the guest, and the two have gone
apart in one place. The library's `delete` checks the proof of the last leaf by its shape. The
guest's checks it by its position, as it does for the leaf that is deleted, and it does so before it
branches. The guest may refuse what the library accepts, so it is no equality that holds: what the
guest accepts the library accepts, with the same stump.

The loops of `add` and `compute_root` are the same in the two, up to their form. They are written
again as the guest has them and proved equal, so that each result on the library's is one on the
guest's.
-/

namespace Hazync
namespace Guest

open MerkleForest Word64
open Accumulator (Proof Stump fold setAt)

variable {H : Type}

namespace Utreexo

/-! ## `add` and `verify` of the guest -/

/-- A root that is there is within the list. -/
theorem lt_length_of_rootAt {s : Stump H} {h : ℕ} {x : H} (hx : s.rootAt h = some x) :
    h < s.roots.length := by
  by_contra hge
  rw [Stump.rootAt, List.getElem?_eq_none (not_lt.mp hge)] at hx
  cases hx

/-- A root that is set within the list does not make it longer. -/
theorem length_setRoot {s : Stump H} {h : ℕ} (val : Option H) (hlt : h < s.roots.length) :
    (s.setRoot h val).roots.length = s.roots.length := by
  rw [Stump.setRoot, setAt, if_neg (not_le.mpr hlt)]
  exact List.length_set

/-- `while self.root_at(h).is_some()`, and the `set_root` after it. -/
def addLoop (parent : H → H → H) (s : Stump H) (node : H) (h : ℕ) : Stump H :=
  match hroot : s.rootAt h with
  | some existing => addLoop parent (s.setRoot h none) (parent existing node) (h + 1)
  | none => s.setRoot h (some node)
termination_by s.roots.length - h
decreasing_by
  have hlt := lt_length_of_rootAt hroot
  rw [length_setRoot none hlt]
  omega

/-- `add` of the guest: the loop, and one leaf more. -/
def add (parent : H → H → H) (s : Stump H) (leaf : H) : Stump H :=
  let s' := addLoop parent s leaf 0
  { s' with numLeaves := s'.numLeaves + 1 }

/-- The loop of `compute_root`. -/
def climbLoop (parent : H → H → H) (node : H) (pos : UInt64) : List H → H
  | [] => node
  | sib :: rest =>
    climbLoop parent (if pos &&& 1 = 0 then parent node sib else parent sib node) (pos >>> 1) rest

/-- `verify` of the guest. -/
def verify [DecidableEq H] (parent : H → H → H) (s : Stump H) (proof : Proof H) : Bool :=
  s.rootAt proof.siblings.length = some (climbLoop parent proof.leaf proof.position proof.siblings)

variable {parent : H → H → H} {s s' : Stump H} {i : UInt64} {p q : Proof H}

/-- The climb is the fold of the library. -/
theorem climbLoop_eq_fold (node : H) (pos : UInt64) (siblings : List H) :
    climbLoop parent node pos siblings = fold parent pos node siblings := by
  rw [fold]
  induction siblings generalizing node pos with
  | nil => rfl
  | cons sib rest ih =>
    rw [climbLoop, ih, List.foldl_cons]

/-- The guest verifies what the library verifies. -/
theorem verify_eq [DecidableEq H] (s : Stump H) (p : Proof H) :
    verify parent s p = s.verify parent p := by
  rw [verify, Accumulator.Stump.verify, Proof.computeRoot, climbLoop_eq_fold]

theorem rootAt_append (pre v : List (Option H)) (n : UInt64) :
    Stump.rootAt ⟨pre ++ v, n⟩ pre.length = v.head?.join := by
  rw [Stump.rootAt, List.getElem?_append_right le_rfl, Nat.sub_self, List.head?_eq_getElem?]

theorem setRoot_append (pre rest : List (Option H)) (x y : Option H) (n : UInt64) :
    Stump.setRoot ⟨pre ++ x :: rest, n⟩ pre.length y = ⟨pre ++ y :: rest, n⟩ := by
  rw [Stump.setRoot, setAt, if_neg (by simp), List.set_append_right _ _ le_rfl, Nat.sub_self,
    List.set_cons_zero]

theorem setRoot_end (pre : List (Option H)) (y : Option H) (n : UInt64) :
    Stump.setRoot ⟨pre, n⟩ pre.length y = ⟨pre ++ [y], n⟩ := by
  rw [Stump.setRoot, setAt, if_pos le_rfl, Nat.add_sub_cancel_left, List.replicate_one,
    List.set_append_right _ _ le_rfl, Nat.sub_self, List.set_cons_zero]

/-- The loop works on the roots from the height it has reached, and is the carry there. -/
theorem addLoop_eq (pre v : List (Option H)) (n : UInt64) (node : H) :
    addLoop parent ⟨pre ++ v, n⟩ node pre.length = ⟨pre ++ Stump.carry parent node v, n⟩ := by
  induction v generalizing pre node with
  | nil =>
    rw [addLoop]
    split
    · rename_i hroot
      rw [rootAt_append] at hroot
      cases hroot
    · rw [List.append_nil, setRoot_end]
      rfl
  | cons x rest ih =>
    rw [addLoop]
    split
    · rename_i existing hroot
      rw [rootAt_append] at hroot
      obtain rfl : x = some existing := hroot
      have hnext := ih (pre ++ [none]) (parent existing node)
      rw [List.append_assoc, List.append_assoc, List.length_append] at hnext
      rw [setRoot_append]
      exact hnext
    · rename_i hroot
      rw [rootAt_append] at hroot
      obtain rfl : x = none := hroot
      rw [setRoot_append]
      rfl

/-- The guest adds as the library does. -/
theorem add_eq (s : Stump H) (leaf : H) : add parent s leaf = s.add parent leaf := by
  rw [add, Accumulator.Stump.add]
  have h : addLoop parent ⟨s.roots, s.numLeaves⟩ leaf 0 =
      ⟨Stump.carry parent leaf s.roots, s.numLeaves⟩ := addLoop_eq [] s.roots s.numLeaves leaf
  rw [h]

/-! ## `delete` -/

/-- A proof pinned to the last position has the shape of a rightmost path. -/
theorem rightmostOk_of_pins {off : UInt64} {k : ℕ} (hn : 0 < s.numLeaves.toNat)
    (ht : s.treeOf (s.numLeaves - 1) = some (off, k)) (hlen : p.siblings.length = k)
    (hpos : p.position = s.numLeaves - 1 - off) : s.rightmostOk p = true := by
  subst hlen
  obtain ⟨h64, hin, hmod⟩ := Stump.treeOf_spec ht
  rw [toNat_sub_one hn] at hin hmod
  have hlast := hin.last_mod (Nat.sub_add_cancel hn)
  have hones : p.position = (1 : UInt64) <<< UInt64.ofNat p.siblings.length - 1 := by
    rw [← UInt64.toNat_inj, hpos, hmod, UInt64.toNat_sub_of_le _ _ (one_le_shiftLeft h64),
      toNat_one_shiftLeft h64]
    exact (Nat.sub_eq_of_eq_add hlast.symm).symm
  have hpos : 0 < s.numLeaves := UInt64.lt_iff_toNat_lt.mpr hn
  simp [Stump.rightmostOk, h64, hpos, hones]

/-- What the guest deletes the library deletes. The checks of the guest stand before its branches,
so each branch of the library is entered with its own check known. -/
theorem library_delete [DecidableEq H] (hd : Stump.delete parent s i p q = some (true, s')) :
    s.delete parent i p q = some (true, s') := by
  obtain ⟨⟨offI, htI, hposI, hvI⟩, hcheckL⟩ := Stump.checks_of_delete hd
  have hlt : i < s.numLeaves := by
    rw [← UInt64.not_le]
    intro hge
    rw [Stump.delete, if_pos hge] at hd
    cases hd
  have hn : 0 < s.numLeaves.toNat :=
    Nat.lt_of_le_of_lt (Nat.zero_le _) (UInt64.lt_iff_toNat_lt.mp hlt)
  have hne : s.numLeaves ≠ 0 := fun h0 => by rw [h0] at hn; exact absurd hn (by decide)
  have hge : ¬ s.numLeaves ≤ i := UInt64.not_le.mpr hlt
  have hpinI : ¬ (p.siblings.length ≠ p.siblings.length ∨ p.position ≠ i - offI) := by
    simp [hposI]
  rw [Stump.delete, if_neg hge] at hd
  simp only [htI, Option.bind_eq_bind, Option.bind_some, if_neg hpinI, hvI, not_true_eq_false,
    if_false] at hd
  rw [Accumulator.Stump.delete, if_neg hne, if_neg hge, if_neg (not_not.mpr hvI)]
  dsimp only
  by_cases hlast : i = s.numLeaves - 1
  · have hok := rightmostOk_of_pins hn (hlast ▸ htI) rfl (hlast ▸ hposI)
    rw [if_pos hlast] at hd
    rw [if_pos hlast, if_neg (not_not.mpr hok)]
    exact hd
  obtain ⟨offL, htL, hposL, hvL⟩ := hcheckL hlast
  have hok := rightmostOk_of_pins hn htL rfl hposL
  have hpinL : ¬ (q.siblings.length ≠ q.siblings.length ∨
      q.position ≠ s.numLeaves - 1 - offL) := by simp [hposL]
  rw [if_neg hlast] at hd
  simp only [htL, Option.bind_some, if_neg hpinL, hvL, not_true_eq_false, if_false] at hd
  rw [if_neg hlast, if_neg (not_not.mpr hvL), if_neg (not_not.mpr hok), htI, htL]
  dsimp only
  by_cases hoff : offI ≠ offL
  · rw [if_pos hoff] at hd ⊢
    exact hd
  · rw [if_neg hoff] at hd ⊢
    have hle : Stump.highestZero p.position p.siblings.length ≤ p.siblings.length := by
      have := Stump.highestZero_le p.position p.siblings.length
      omega
    rw [if_neg (not_lt.mpr hle), Stump.slicePrefix, if_pos hle]
    rw [Stump.slicePrefix, if_pos hle] at hd
    exact hd

/-- **The guest's accumulator refines the library's.** For every accumulator, index and pair of
proofs: a delete the guest accepts the library accepts, with the same roots and leaf count, and
`add` and `verify` agree everywhere. So the pins only take acceptances away. -/
theorem refines_library [DecidableEq H] (parent : H → H → H) (s : Stump H) :
    (∀ i p q s', Stump.delete parent s i p q = some (true, s') →
      ∃ t, s.delete parent i p q = some (true, t) ∧ t.normalized = s'.normalized ∧
        t.numLeaves = s'.numLeaves) ∧
    (∀ leaf, add parent s leaf = s.add parent leaf) ∧
    (∀ p, verify parent s p = s.verify parent p) :=
  ⟨fun _ _ _ s' hd => ⟨s', library_delete hd, rfl, rfl⟩, fun leaf => add_eq s leaf,
    fun p => verify_eq s p⟩

end Utreexo
end Guest
end Hazync
