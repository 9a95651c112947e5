import Mathlib.Algebra.Order.Ring.Nat
import Mathlib.Data.Finset.Card
import Mathlib.Data.Finset.Max
import Mathlib.Tactic.Ring

/-!
# Nodes of an aligned binary tree

Node `i` of level `k` stands for the `2 ^ k` numbers after the first `i * 2 ^ k`, counted from 1.
Its children are the nodes `2 * i` and `2 * i + 1` of the level below.

A set that has the children of some of its nodes has more than twice as many: the children are
distinct, and one node of the greatest width is no child.

## Where there are too few to join

The second part is a matter of counting. Let `P` be a set of nodes each of which has both its halves
in `T`, with `P` itself a part of `T`. The halves of different nodes are different, and a left half
is never a right half; so there are twice as many halves as nodes in `P`, and all of them are in
`T`. They are narrower than the nodes they are halves of, and hence the widest of `P` is not among
them. This makes it strictly more than twice.

The use is in the other direction. Where nodes are made by joining halves, and all that were not
joined are known, there are fewer joined ones than those.
-/

namespace AlignedNodes

/-- The first and the last number of a node. -/
def node (k i : ℕ) : ℕ × ℕ := (i * 2 ^ k + 1, (i + 1) * 2 ^ k)

/-- The end of the left half. -/
def middle (p : ℕ × ℕ) : ℕ := (p.1 - 1 + p.2) / 2

def leftHalf (p : ℕ × ℕ) : ℕ × ℕ := (p.1, middle p)

def rightHalf (p : ℕ × ℕ) : ℕ × ℕ := (middle p + 1, p.2)

/-- How many numbers there are. -/
def width (p : ℕ × ℕ) : ℕ := p.2 + 1 - p.1

variable {k i k' i' : ℕ}

/-- A node of level `k` is `2 ^ k` wide. -/
theorem width_node (k i : ℕ) : width (node k i) = 2 ^ k := by
  unfold width node
  rw [Nat.succ_mul, Nat.add_sub_add_right, Nat.add_sub_cancel_left]

/-- A node is known by where it starts and how wide it is. -/
theorem eq_node {p : ℕ × ℕ} (hfirst : p.1 = i * 2 ^ k + 1) (hwidth : width p = 2 ^ k) :
    p = node k i := by
  unfold width at hwidth
  have hpos := Nat.two_pow_pos k
  unfold node
  rw [Nat.succ_mul]
  apply Prod.ext
  · exact hfirst
  · dsimp only
    omega

/-- And its level and its number are read off it. -/
theorem node_inj (h : node k i = node k' i') : k = k' ∧ i = i' := by
  have hwidth := congrArg width h
  rw [width_node, width_node] at hwidth
  obtain rfl := Nat.pow_right_injective (le_refl 2) hwidth
  have hfirst : i * 2 ^ k = i' * 2 ^ k := Nat.succ.inj (congrArg Prod.fst h)
  exact ⟨rfl, Nat.eq_of_mul_eq_mul_right (Nat.two_pow_pos k) hfirst⟩

/-- The middle of a node is a multiple of half its width. -/
theorem middle_node (k i : ℕ) : middle (node (k + 1) i) = (2 * i + 1) * 2 ^ k := by
  unfold middle node
  have hsum : i * 2 ^ (k + 1) + 1 - 1 + (i + 1) * 2 ^ (k + 1) = 2 * ((2 * i + 1) * 2 ^ k) := by
    rw [Nat.add_sub_cancel]
    ring
  rw [hsum, Nat.mul_div_cancel_left _ Nat.two_pos]

/-- Its left half is the node with twice its number. -/
theorem leftHalf_node (k i : ℕ) : leftHalf (node (k + 1) i) = node k (2 * i) := by
  unfold leftHalf
  rw [middle_node]
  unfold node
  congr 1
  ring

/-- Its right half is the one after. -/
theorem rightHalf_node (k i : ℕ) : rightHalf (node (k + 1) i) = node k (2 * i + 1) := by
  unfold rightHalf
  rw [middle_node]
  unfold node
  congr 1
  ring

/-- A node of a level above the lowest, with both halves in the set. -/
def Joined (T : Finset (ℕ × ℕ)) (p : ℕ × ℕ) : Prop :=
  ∃ k i, p = node (k + 1) i ∧ node k (2 * i) ∈ T ∧ node k (2 * i + 1) ∈ T

variable {T P : Finset (ℕ × ℕ)} {p q : ℕ × ℕ}

/-- In a larger set more is joined. -/
theorem Joined.mono {T' : Finset (ℕ × ℕ)} (hT : T ⊆ T') (h : Joined T p) : Joined T' p := by
  obtain ⟨k, i, hp, hl, hr⟩ := h
  exact ⟨k, i, hp, hT hl, hT hr⟩

/-- The left half is there. -/
theorem Joined.left_mem (h : Joined T p) : leftHalf p ∈ T := by
  obtain ⟨k, i, rfl, hl, -⟩ := h
  rwa [leftHalf_node]

/-- So is the right half. -/
theorem Joined.right_mem (h : Joined T p) : rightHalf p ∈ T := by
  obtain ⟨k, i, rfl, -, hr⟩ := h
  rwa [rightHalf_node]

/-- A node is known by its left half. -/
theorem Joined.left_inj (hp : Joined T p) (hq : Joined T q) (h : leftHalf p = leftHalf q) :
    p = q := by
  obtain ⟨k, i, rfl, -⟩ := hp
  obtain ⟨k', i', rfl, -⟩ := hq
  rw [leftHalf_node, leftHalf_node] at h
  obtain ⟨rfl, hi⟩ := node_inj h
  rw [Nat.eq_of_mul_eq_mul_left Nat.two_pos hi]

/-- And by its right half. -/
theorem Joined.right_inj (hp : Joined T p) (hq : Joined T q) (h : rightHalf p = rightHalf q) :
    p = q := by
  obtain ⟨k, i, rfl, -⟩ := hp
  obtain ⟨k', i', rfl, -⟩ := hq
  rw [rightHalf_node, rightHalf_node] at h
  obtain ⟨rfl, hi⟩ := node_inj h
  rw [Nat.eq_of_mul_eq_mul_left Nat.two_pos (Nat.succ.inj hi)]

/-- A left half has an even number, and a right half an odd one. -/
theorem Joined.left_ne_right (hp : Joined T p) (hq : Joined T q) : leftHalf p ≠ rightHalf q := by
  intro h
  obtain ⟨k, i, rfl, -⟩ := hp
  obtain ⟨k', i', rfl, -⟩ := hq
  rw [leftHalf_node, rightHalf_node] at h
  have hodd := (node_inj h).2
  omega

/-- The halves are narrower. -/
theorem Joined.width_left (h : Joined T p) : width (leftHalf p) < width p := by
  obtain ⟨k, i, rfl, -⟩ := h
  rw [leftHalf_node, width_node, width_node]
  exact Nat.pow_lt_pow_succ Nat.one_lt_two

theorem Joined.width_right (h : Joined T p) : width (rightHalf p) < width p := by
  obtain ⟨k, i, rfl, -⟩ := h
  rw [rightHalf_node, width_node, width_node]
  exact Nat.pow_lt_pow_succ Nat.one_lt_two

/-- More than twice as many as are joined. -/
theorem two_mul_card_lt (hP : P.Nonempty) (hsub : P ⊆ T) (h : ∀ p ∈ P, Joined T p) :
    2 * P.card < T.card := by
  obtain ⟨top, htop, hwidest⟩ := P.exists_max_image width hP
  have hleft : (P.image leftHalf).card = P.card :=
    Finset.card_image_of_injOn fun p hp q hq => (h p hp).left_inj (h q hq)
  have hright : (P.image rightHalf).card = P.card :=
    Finset.card_image_of_injOn fun p hp q hq => (h p hp).right_inj (h q hq)
  have hdisjoint : Disjoint (P.image leftHalf) (P.image rightHalf) := by
    rw [Finset.disjoint_left]
    intro x hx hx'
    obtain ⟨p, hp, rfl⟩ := Finset.mem_image.mp hx
    obtain ⟨q, hq, heq⟩ := Finset.mem_image.mp hx'
    exact (h p hp).left_ne_right (h q hq) heq.symm
  have hnew : top ∉ P.image leftHalf ∪ P.image rightHalf := by
    intro hmem
    rcases Finset.mem_union.mp hmem with hmem | hmem
    · obtain ⟨p, hp, rfl⟩ := Finset.mem_image.mp hmem
      exact absurd (hwidest p hp) (not_le.mpr (h p hp).width_left)
    · obtain ⟨p, hp, rfl⟩ := Finset.mem_image.mp hmem
      exact absurd (hwidest p hp) (not_le.mpr (h p hp).width_right)
  have hall : insert top (P.image leftHalf ∪ P.image rightHalf) ⊆ T := by
    intro x hx
    rcases Finset.mem_insert.mp hx with rfl | hx
    · exact hsub htop
    · rcases Finset.mem_union.mp hx with hx | hx
      · obtain ⟨p, hp, rfl⟩ := Finset.mem_image.mp hx
        exact (h p hp).left_mem
      · obtain ⟨p, hp, rfl⟩ := Finset.mem_image.mp hx
        exact (h p hp).right_mem
  have hcard := Finset.card_le_card hall
  rw [Finset.card_insert_of_notMem hnew, Finset.card_union_of_disjoint hdisjoint, hleft,
    hright] at hcard
  omega

/-- Where all but the joined ones are in `A`, fewer are joined than `A` has. -/
theorem card_lt_of_joined {A : Finset (ℕ × ℕ)} (hP : P.Nonempty)
    (h : ∀ p ∈ P, Joined (A ∪ P) p) : P.card < A.card := by
  have htwice := two_mul_card_lt hP Finset.subset_union_right h
  have hunion := Finset.card_union_le A P
  omega

end AlignedNodes
