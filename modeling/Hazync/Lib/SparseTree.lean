import Mathlib.Logic.Function.Basic
import Mathlib.Tactic.Common
import Hazync.Lib.MerkleForest

/-!
# Sparse Merkle trees

A complete binary tree of a fixed height whose leaves are slots, one for each path of that
length. `root` folds the slots up; `climb` folds one slot up along its path with the siblings it
is given. For a `node` that is injective on pairs a climb that arrives at the root started from
the slot's own value and passed the tree's own siblings (`climb_sound`), so replacing the start
replaces the slot (`climb_update`).

The last section is about maps: a key has a path, a value a slot, and `mapRoot` is the root of
the tree with every key's value in the slot at its path.

## A tree over all keys

The tree has a slot for every string of bits of one length, and nearly all slots are empty. Nobody
writes it down. A program keeps the roots of the subtrees in which something is; for the others one
value for each height is enough. Here that does not matter. The tree is the function of all slots,
`root` is defined by recursion on the height, and how it is computed from a small part of it is left
to the program.

A climb with given siblings is the same as in any Merkle tree. What makes the sparse one useful is
that absence is an opening too: a slot that holds the empty value opens to it like any other. And as
replacing a slot leaves the siblings of its path alone (`siblings_update`), the same siblings that
showed the old value give the root with the new one. So whoever knows only the root can follow the
updates of others, checking each of them (`climb_update`).
-/

namespace SparseTree

open MerkleForest (PairInjective)

variable {K S : Type*} (node : S → S → S)

/-- The parent of `x` and its sibling; the bit says whether `x` is the right child. -/
def join (b : Bool) (x s : S) : S := if b then node s x else node x s

/-- Root of the subtree of height `h` under the path `p`. -/
def root (slots : List Bool → S) : ℕ → List Bool → S
  | 0, p => slots p
  | h + 1, p => node (root slots h (p ++ [false])) (root slots h (p ++ [true]))

/-- The siblings along a path below `p`, from the top. -/
def siblings (slots : List Bool → S) : List Bool → List Bool → List S
  | _, [] => []
  | p, b :: bs => root node slots bs.length (p ++ [!b]) :: siblings slots (p ++ [b]) bs

/-- Fold `x` up along a path, with siblings listed from the top. -/
def climb : List Bool → List S → S → S
  | b :: bs, s :: ss, x => join node b (climb bs ss x) s
  | _, _, x => x

variable {node}

@[simp] theorem length_siblings (slots : List Bool → S) (p bs : List Bool) :
    (siblings node slots p bs).length = bs.length := by
  induction bs generalizing p with
  | nil => rfl
  | cons b bs ih => rw [siblings, List.length_cons, ih, List.length_cons]

/-- The siblings, by their heights. -/
theorem getElem?_siblings (slots : List Bool → S) (p : List Bool) {bs : List Bool} {i : ℕ}
    {b : Bool} (hb : bs[i]? = some b) :
    (siblings node slots p bs)[i]? =
      some (root node slots (bs.length - (i + 1)) (p ++ bs.take i ++ [!b])) := by
  induction bs generalizing p i with
  | nil => cases hb
  | cons c bs ih =>
    rw [siblings]
    cases i with
    | zero =>
      obtain rfl := Option.some.inj hb
      rw [List.take_zero, List.append_nil]
      rfl
    | succ i =>
      rw [List.getElem?_cons_succ] at hb ⊢
      rw [ih _ hb, List.take_succ_cons, List.length_cons, Nat.add_sub_add_right,
        List.append_assoc p [c], List.singleton_append]

/-- The lowest step of a climb comes first. -/
theorem climb_concat {bs : List Bool} {ss : List S} (h : bs.length = ss.length) (b : Bool)
    (s x : S) : climb node (bs ++ [b]) (ss ++ [s]) x = climb node bs ss (join node b x s) := by
  induction bs generalizing ss with
  | nil =>
    obtain rfl : ss = [] := List.length_eq_zero_iff.mp h.symm
    rfl
  | cons c bs ih =>
    cases ss with
    | nil => cases h
    | cons t ss =>
      rw [List.cons_append, List.cons_append, climb, climb, ih (Nat.succ.inj h)]

/-- A subtree depends on its own slots only. -/
theorem root_congr {slots slots' : List Bool → S} {h : ℕ} {p : List Bool}
    (hs : ∀ q, q.length = h → slots (p ++ q) = slots' (p ++ q)) :
    root node slots h p = root node slots' h p := by
  induction h generalizing p with
  | zero => simpa [root] using hs [] rfl
  | succ h ih =>
    have hchild : ∀ b, root node slots h (p ++ [b]) = root node slots' h (p ++ [b]) := by
      intro b
      refine ih fun q hq => ?_
      rw [List.append_assoc]
      exact hs _ (by simp [hq])
    rw [root, root, hchild, hchild]

/-- A subtree is its path's child and the sibling. -/
theorem root_eq_join (slots : List Bool → S) (h : ℕ) (p : List Bool) (b : Bool) :
    root node slots (h + 1) p =
      join node b (root node slots h (p ++ [b])) (root node slots h (p ++ [!b])) := by
  cases b <;> rfl

/-- The climb along the tree's own siblings ends at its root. -/
theorem climb_siblings (slots : List Bool → S) (p bs : List Bool) :
    climb node bs (siblings node slots p bs) (slots (p ++ bs)) =
      root node slots bs.length p := by
  induction bs generalizing p with
  | nil => rw [List.append_nil]; rfl
  | cons b bs ih =>
    have htail := ih (p ++ [b])
    rw [List.append_assoc, List.singleton_append] at htail
    rw [siblings, climb, htail, List.length_cons, root_eq_join]

/-- The parent tells both of its children. -/
theorem join_inj (hinj : PairInjective node) {b : Bool} {x y s t : S}
    (h : join node b x s = join node b y t) : x = y ∧ s = t := by
  cases b with
  | false => exact hinj _ _ _ _ h
  | true => exact (hinj _ _ _ _ h).symm

/-- A climb to the root started from the slot and passed the tree's siblings. -/
theorem climb_sound (hinj : PairInjective node) {slots : List Bool → S} {p bs : List Bool}
    {ss : List S} {x : S} (hlen : ss.length = bs.length)
    (h : climb node bs ss x = root node slots bs.length p) :
    x = slots (p ++ bs) ∧ ss = siblings node slots p bs := by
  induction bs generalizing p ss with
  | nil =>
    obtain rfl : ss = [] := List.length_eq_zero_iff.mp hlen
    rw [List.append_nil]
    exact ⟨h, rfl⟩
  | cons b bs ih =>
    cases ss with
    | nil => cases hlen
    | cons s ss =>
      rw [climb, List.length_cons, root_eq_join] at h
      obtain ⟨hbelow, rfl⟩ := join_inj hinj h
      obtain ⟨rfl, rfl⟩ := ih (Nat.succ.inj hlen) hbelow
      refine ⟨?_, rfl⟩
      rw [List.append_assoc, List.singleton_append]

/-- A slot elsewhere does not matter. -/
theorem root_update_of_ne {slots : List Bool → S} {h : ℕ} {p q : List Bool} (y : S)
    (hq : ∀ r, p ++ r ≠ q) :
    root node (Function.update slots q y) h p = root node slots h p :=
  root_congr fun r _ => Function.update_of_ne (hq r) _ _

/-- Replacing a slot leaves the siblings of its path alone. -/
theorem siblings_update (slots : List Bool → S) (p bs : List Bool) (y : S) :
    siblings node (Function.update slots (p ++ bs) y) p bs = siblings node slots p bs := by
  induction bs generalizing p with
  | nil => rfl
  | cons b bs ih =>
    have htail := ih (p ++ [b])
    rw [List.append_assoc, List.singleton_append] at htail
    rw [siblings, siblings, htail, root_update_of_ne]
    intro r h
    rw [List.append_assoc, List.singleton_append, List.append_cancel_left_eq] at h
    cases b <;> cases h

/-- With another value in the slot, the same siblings give the new root. -/
theorem climb_siblings_update (slots : List Bool → S) (p bs : List Bool) (y : S) :
    climb node bs (siblings node slots p bs) y =
      root node (Function.update slots (p ++ bs) y) bs.length p := by
  have h := @climb_siblings _ node (Function.update slots (p ++ bs) y) p bs
  rwa [siblings_update, Function.update_self] at h

/-! ## Maps -/

variable (node) in
/-- The root of the tree of height `depth` that holds `f k` at `path k` and `z` elsewhere. -/
noncomputable def mapRoot (path : K → List Bool) (depth : ℕ) (z : S) (f : K → S) : S :=
  root node (Function.extend path f fun _ => z) depth []

variable (node) in
/-- The honest siblings of a key. -/
noncomputable def mapSiblings (path : K → List Bool) (z : S) (f : K → S) (k : K) : List S :=
  siblings node (Function.extend path f fun _ => z) [] (path k)

variable {path : K → List Bool} {depth : ℕ} {z : S} {f : K → S} {k : K}

/-- A key's slot is replaced where its value is. -/
theorem extend_update [DecidableEq K] (hpath : Function.Injective path) (y : S) :
    Function.extend path (Function.update f k y) (fun _ => z) =
      Function.update (Function.extend path f fun _ => z) (path k) y := by
  funext p
  by_cases hp : ∃ k', path k' = p
  · obtain ⟨k', rfl⟩ := hp
    rw [hpath.extend_apply]
    by_cases hk : k' = k
    · rw [hk, Function.update_self, Function.update_self]
    · rw [Function.update_of_ne hk, Function.update_of_ne fun h => hk (hpath h),
        hpath.extend_apply]
  · rw [Function.extend_apply' _ _ _ hp, Function.update_of_ne fun h => hp ⟨k, h.symm⟩,
      Function.extend_apply' _ _ _ hp]

/-- The honest siblings take another value up to the root of the updated map. -/
theorem climb_mapSiblings_update [DecidableEq K] (hpath : Function.Injective path)
    (hdepth : (path k).length = depth) (y : S) :
    climb node (path k) (mapSiblings node path z f k) y =
      mapRoot node path depth z (Function.update f k y) := by
  subst hdepth
  rw [mapSiblings, climb_siblings_update, List.nil_append, mapRoot, extend_update hpath]

/-- **A climb to the root pins the value and carries an update.** -/
theorem climb_update [DecidableEq K] (hinj : PairInjective node)
    (hpath : Function.Injective path) (hdepth : (path k).length = depth) {ss : List S} {x : S}
    (hlen : ss.length = depth) (h : climb node (path k) ss x = mapRoot node path depth z f) :
    x = f k ∧ ∀ y, climb node (path k) ss y =
      mapRoot node path depth z (Function.update f k y) := by
  subst hdepth
  obtain ⟨rfl, rfl⟩ := climb_sound hinj hlen h
  exact ⟨hpath.extend_apply _ _ _, climb_mapSiblings_update hpath rfl⟩

end SparseTree
