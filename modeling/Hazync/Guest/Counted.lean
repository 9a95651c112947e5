import Hazync.Guest.Bookkeeping

/-!
# The roots that the leaf count reaches

The leaf count is a `u64`, and `add` wraps it without a check while its carry goes on past height
63. `delete` only ever looks at the heights of the bits of the count, so the roots below height 64
live on as if there were no others, and what the carry takes out of them is out of reach. With the
accumulator cut down to these roots, the results on `delete` need no bound on the count.

The same goes for the shape: which roots are there does not depend on the hashes, so it is that of
an accumulator of units, where every `parent` is one-to-one.

## Why units

A result about deletes that is used for every block of every run should not ask that there are fewer
than 2⁶³ leaves, since nothing in the guest checks it. Two things go wrong at the wrap: the count
starts again, and old roots are left above it. Cut to the heights that the count reaches, the
accumulator goes on as before (`CommitsBelow`), and after a wrap it is the empty one
(`CommitsBelow.add_wrap`).

The hashes of the roots are mapped along with this. With the identity one has the result on hashes;
with the constant map into one point the hashes are forgotten and what is left is which roots are
there. In the second case the parent function is one-to-one for want of two points, so that deletes
that are accepted keep the shape whatever the hash function does, and nothing needs to be assumed of
it.
-/

namespace Hazync
namespace Guest

open MerkleForest SwapRemove
open Accumulator (Proof Stump normalize fold)

namespace Stump

variable {H K : Type} {parent : H → H → H} {s s' : Stump H} {i : UInt64} {p q : Proof H}

/-! ## An accepted delete, written out -/

/-- The last leaf moved into the place of `p`, and shrunk. -/
def moveLast (parent : H → H → H) (s : Stump H) (offI offL : UInt64) (p q : Proof H) : Stump H :=
  if offI ≠ offL then
    (s.setRoot p.siblings.length
      (some (fold parent p.position q.leaf p.siblings))).removeRightmost q
  else
    let j := Stump.highestZero p.position p.siblings.length
    (s.removeRightmost q).setRoot j
      (some (fold parent (p.position &&& ((1 : UInt64) <<< UInt64.ofNat j - 1)) q.leaf
        (p.siblings.take j)))

/-- The pin and the proof of one position. -/
def Pinned [DecidableEq H] (parent : H → H → H) (s : Stump H) (pos off : UInt64) (p : Proof H) :
    Prop :=
  s.treeOf pos = some (off, p.siblings.length) ∧ p.position = pos - off ∧ s.verify parent p = true

/-- A zero is found at or below where it is looked for. -/
theorem highestZero_le (px : UInt64) (h : ℕ) : Stump.highestZero px h ≤ h := by
  induction h with
  | zero => exact le_rfl
  | succ h ih =>
    rw [Stump.highestZero]
    split
    · exact Nat.le_succ h
    · exact ih.trans (Nat.le_succ h)

/-- **An accepted delete, written out**: two positions that are pinned, and the last leaf moved into
    the gap. -/
theorem delete_eq_true [DecidableEq H] :
    delete parent s i p q = some (true, s') ↔
      i < s.numLeaves ∧ ∃ offI, Pinned parent s i offI p ∧
        if i = s.numLeaves - 1 then s' = s.removeRightmost p
        else ∃ offL, Pinned parent s (s.numLeaves - 1) offL q ∧
          s' = moveLast parent s offI offL p q := by
  have hslice : Stump.slicePrefix p.siblings (Stump.highestZero p.position p.siblings.length) =
      some (p.siblings.take (Stump.highestZero p.position p.siblings.length)) :=
    if_pos (highestZero_le _ _)
  have hpin {off : UInt64} {pos : UInt64} {p : Proof H} (h : p.position = pos - off) :
      ¬ (p.siblings.length ≠ p.siblings.length ∨ p.position ≠ pos - off) := by simp [h]
  constructor
  · intro hd
    -- a deletion that goes through has passed its checks
    obtain ⟨⟨offI, hI, hposI, hvI⟩, hlast⟩ := checks_of_delete hd
    unfold delete at hd
    split at hd
    · cases hd
    rename_i hlt
    simp only [hI, Option.bind_eq_bind, Option.bind_some, if_neg (hpin hposI)] at hd
    refine ⟨UInt64.not_le.mp hlt, offI, ⟨hI, hposI, hvI⟩, ?_⟩
    -- the last leaf is only removed; another one is replaced by the last
    by_cases heq : i = s.numLeaves - 1
    · rw [if_pos heq] at hd ⊢
      exact (Prod.mk.inj (Option.some.inj hd)).2.symm
    · obtain ⟨offL, hL, hposL, hvL⟩ := hlast heq
      rw [if_neg heq] at hd ⊢
      refine ⟨offL, ⟨hL, hposL, hvL⟩, ?_⟩
      simp only [hL, Option.bind_some, if_neg (hpin hposL), hvL, not_true_eq_false, if_false,
        hslice] at hd
      rw [moveLast]
      split at hd
      all_goals
        rename_i hoff
        first | rw [if_pos hoff] | rw [if_neg hoff]
        exact (Prod.mk.inj (Option.some.inj hd)).2.symm
  · rintro ⟨hlt, offI, ⟨hI, hposI, hvI⟩, h⟩
    unfold delete
    rw [if_neg (UInt64.not_le.mpr hlt)]
    simp only [hI, Option.bind_eq_bind, Option.bind_some, if_neg (hpin hposI), hvI,
      not_true_eq_false, if_false]
    by_cases heq : i = s.numLeaves - 1
    · rw [if_pos heq] at h ⊢
      rw [h]
    · rw [if_neg heq] at h ⊢
      obtain ⟨offL, ⟨hL, hposL, hvL⟩, rfl⟩ := h
      simp only [hL, Option.bind_some, if_neg (hpin hposL), hvL, not_true_eq_false, if_false, hslice,
        moveLast]
      split
      · rfl
      · rfl

/-! ## The roots below height 64 -/

/-- A proof, its hashes mapped. -/
def mapProof (f : H → K) (p : Proof H) : Proof K := ⟨f p.leaf, p.position, p.siblings.map f⟩

/-- `t` has the count of `s`, and the roots of `s` below height `n` mapped by `f`. -/
structure Below (n : ℕ) (f : H → K) (s : Stump H) (t : Stump K) : Prop where
  numLeaves : t.numLeaves = s.numLeaves
  rootAt : ∀ k < n, t.rootAt k = (s.rootAt k).map f

variable {n : ℕ} {f : H → K} {parent' : K → K → K} {t : Stump K}

/-- A path is folded to the image of its root. -/
theorem map_fold (hf : ∀ a b, f (parent a b) = parent' (f a) (f b)) (position : UInt64) (leaf : H)
    (siblings : List H) :
    f (fold parent position leaf siblings) = fold parent' position (f leaf) (siblings.map f) := by
  rw [fold, fold]
  induction siblings generalizing position leaf with
  | nil => rfl
  | cons x xs ih =>
    rw [List.foldl_cons, ih, List.map_cons, List.foldl_cons]
    dsimp only
    split
    · rw [hf]
    · rw [hf]

/-- The trees are those of the count. -/
theorem Below.treeOf (h : Below n f s t) (pos : UInt64) : t.treeOf pos = s.treeOf pos := by
  rw [Stump.treeOf, h.numLeaves, Stump.treeOf]

/-- A position that is pinned is pinned in the image. -/
theorem Below.pinned [DecidableEq H] [DecidableEq K]
    (hf : ∀ a b, f (parent a b) = parent' (f a) (f b)) (hn : 64 ≤ n) (h : Below n f s t)
    {pos off : UInt64} (hp : Pinned parent s pos off p) : Pinned parent' t pos off (mapProof f p) := by
  obtain ⟨htree, hpos, hv⟩ := hp
  refine ⟨?_, hpos, ?_⟩
  · rw [h.treeOf, htree, mapProof, List.length_map]
  · rw [Stump.verify, decide_eq_true_iff] at hv ⊢
    rw [mapProof, List.length_map, h.rootAt _ ((Stump.treeOf_spec htree).1.trans_le hn), hv, Option.map_some,
      Proof.computeRoot, Proof.computeRoot, map_fold hf]

theorem Below.setRoot (h : Below n f s t) (k : ℕ) (v : Option H) :
    Below n f (s.setRoot k v) (t.setRoot k (v.map f)) where
  numLeaves := h.numLeaves
  rootAt j hj := by
    rw [Stump.rootAt_setRoot, Stump.rootAt_setRoot]
    split
    · rfl
    · exact h.rootAt j hj

/-- The last leaf goes from both. -/
theorem Below.removeRightmost (h : Below n f s t) (p : Proof H) :
    Below n f (s.removeRightmost p) (t.removeRightmost (mapProof f p)) where
  numLeaves := by
    rw [Stump.removeRightmost_numLeaves, Stump.removeRightmost_numLeaves, h.numLeaves]
  rootAt j hj := by
    rw [Stump.rootAt_removeRightmost, Stump.rootAt_removeRightmost, mapProof, List.length_map]
    split
    · rw [List.getElem?_map]
    · split
      · rfl
      · exact h.rootAt j hj

/-- An accepted delete is accepted on the mapped roots. -/
theorem Below.delete [DecidableEq H] [DecidableEq K]
    (hf : ∀ a b, f (parent a b) = parent' (f a) (f b)) (hn : 64 ≤ n) (h : Below n f s t)
    (hd : delete parent s i p q = some (true, s')) :
    ∃ t', delete parent' t i (mapProof f p) (mapProof f q) = some (true, t') ∧ Below n f s' t' := by
  obtain ⟨hlt, offI, hI, hrest⟩ := delete_eq_true.mp hd
  have hlt : i < t.numLeaves := by rwa [h.numLeaves]
  by_cases heq : i = s.numLeaves - 1
  · rw [if_pos heq] at hrest
    subst hrest
    refine ⟨_, delete_eq_true.mpr ⟨hlt, offI, h.pinned hf hn hI, ?_⟩, h.removeRightmost p⟩
    rw [if_pos (by rwa [h.numLeaves])]
  · rw [if_neg heq] at hrest
    obtain ⟨offL, hL, rfl⟩ := hrest
    refine ⟨moveLast parent' t offI offL (mapProof f p) (mapProof f q),
      delete_eq_true.mpr ⟨hlt, offI, h.pinned hf hn hI, ?_⟩, ?_⟩
    · rw [if_neg (by rwa [h.numLeaves])]
      exact ⟨offL, by rw [h.numLeaves]; exact h.pinned hf hn hL, rfl⟩
    · rw [moveLast, moveLast]
      split
      · have hroot := (h.setRoot p.siblings.length
          (some (fold parent p.position q.leaf p.siblings))).removeRightmost q
        rw [Option.map_some, map_fold hf] at hroot
        simpa only [mapProof, List.length_map] using hroot
      · have hroot := (h.removeRightmost q).setRoot
          (Stump.highestZero p.position p.siblings.length)
          (some (fold parent (p.position &&& ((1 : UInt64) <<<
            UInt64.ofNat (Stump.highestZero p.position p.siblings.length) - 1)) q.leaf
              (p.siblings.take (Stump.highestZero p.position p.siblings.length))))
        rw [Option.map_some, map_fold hf, List.map_take] at hroot
        simpa only [mapProof, List.length_map] using hroot

/-- A carry that finds no root puts its hash there and stops. -/
theorem carry_of_none (parent : H → H → H) {v : List (Option H)} (x : H)
    (h : v[0]?.join = none) :
    (Stump.carry parent x v)[0]?.join = some x ∧
      ∀ k : ℕ, (Stump.carry parent x v)[k + 1]?.join = v[k + 1]?.join := by
  cases v with
  | nil => exact ⟨rfl, fun k => rfl⟩
  | cons r v =>
    cases r with
    | none => exact ⟨rfl, fun k => rfl⟩
    | some e => cases h

/-- Where there is a root at height 0 the list begins with it. -/
theorem exists_cons_of_join {v : List (Option H)} {e : H} (h : v[0]?.join = some e) :
    ∃ rest, v = some e :: rest := by
  cases v with
  | nil => cases h
  | cons r v =>
    cases r with
    | none => cases h
    | some e' =>
      cases h
      exact ⟨v, rfl⟩

/-- The carry below a height is a matter of the roots below it. -/
theorem map_carry (hf : ∀ a b, f (parent a b) = parent' (f a) (f b))
    {v : List (Option H)} {w : List (Option K)} (x : H) (h : ∀ k < n, w[k]?.join = (v[k]?.join).map f) :
    ∀ k < n, (Stump.carry parent' (f x) w)[k]?.join =
      ((Stump.carry parent x v)[k]?.join).map f := by
  induction n generalizing v w x with
  | zero =>
    intro k hk
    cases hk
  | succ n ih =>
    intro k hk
    have h0 := h 0 n.succ_pos
    cases hv : v[0]?.join with
    | none =>
      rw [hv, Option.map_none] at h0
      obtain ⟨hzero, hsucc⟩ := carry_of_none parent x hv
      obtain ⟨hzero', hsucc'⟩ := carry_of_none parent' (f x) h0
      cases k with
      | zero => rw [hzero, hzero', Option.map_some]
      | succ k => rw [hsucc, hsucc', h _ hk]
    | some e =>
      rw [hv, Option.map_some] at h0
      obtain ⟨v, rfl⟩ := exists_cons_of_join hv
      obtain ⟨w, rfl⟩ := exists_cons_of_join h0
      rw [Stump.carry, Stump.carry, ← hf]
      cases k with
      | zero => rfl
      | succ k =>
        exact ih (parent e x) (fun j hj => h (j + 1) (Nat.succ_lt_succ hj)) k
          (Nat.lt_of_succ_lt_succ hk)

theorem Below.add (hf : ∀ a b, f (parent a b) = parent' (f a) (f b)) (h : Below n f s t) (x : H) :
    Below n f (s.add parent x) (t.add parent' (f x)) where
  numLeaves := congrArg (· + 1) h.numLeaves
  rootAt := map_carry hf x h.rootAt

/-! ## Commitments up to the count -/

/-- The count and the roots below height `n`, mapped by `f`, are those of `L`. -/
def CommitsBelow (n : ℕ) (f : H → K) (parent' : K → K → K) (s : Stump H) (L : List K) : Prop :=
  ∃ t : Stump K, Below n f s t ∧ t.Commits parent' L

variable {L : List K}

theorem CommitsBelow.numLeaves (h : CommitsBelow n f parent' s L) :
    s.numLeaves.toNat = L.length := by
  obtain ⟨t, hbelow, hcommits⟩ := h
  rw [← hbelow.numLeaves, hcommits.numLeaves]

/-- An accepted delete takes one leaf out, below the count as above. -/
theorem CommitsBelow.delete [DecidableEq H] [DecidableEq K] (hinj : PairInjective parent')
    (hf : ∀ a b, f (parent a b) = parent' (f a) (f b)) (hn : 64 ≤ n)
    (h : CommitsBelow n f parent' s L) (hd : delete parent s i p q = some (true, s')) :
    L[i.toNat]? = some (f p.leaf) ∧ CommitsBelow n f parent' s' (swapRemove L i.toNat) := by
  obtain ⟨t, hbelow, hcommits⟩ := h
  obtain ⟨t', hd', hbelow'⟩ := hbelow.delete hf hn hd
  obtain ⟨-, hget, hcommits'⟩ := delete_sound hinj hcommits hd'
  exact ⟨hget, t', hbelow', hcommits'⟩

/-- An append adds one leaf, while the count does not wrap. -/
theorem CommitsBelow.add (hf : ∀ a b, f (parent a b) = parent' (f a) (f b))
    (h : CommitsBelow n f parent' s L) (x : H) (hlen : L.length + 1 < 2 ^ 64) :
    CommitsBelow n f parent' (s.add parent x) (L ++ [f x]) := by
  obtain ⟨t, hbelow, hcommits⟩ := h
  exact ⟨_, hbelow.add hf x, hcommits.add (f x) hlen⟩

/-- An append that wraps the count leaves nothing below height 64. -/
theorem CommitsBelow.add_wrap (hf : ∀ a b, f (parent a b) = parent' (f a) (f b))
    (h : CommitsBelow 64 f parent' s L) (x : H) (hlen : ¬ L.length + 1 < 2 ^ 64) :
    CommitsBelow 64 f parent' (s.add parent x) [] := by
  obtain ⟨t, hbelow, hcommits⟩ := h
  have hfull : (L ++ [f x]).length = 2 ^ 64 := by
    rw [List.length_append, List.length_singleton]
    exact Nat.le_antisymm hcommits.length_lt (Nat.not_lt.mp hlen)
  have hadd := hbelow.add hf x
  refine ⟨Stump.empty, ⟨?_, fun k hk => ?_⟩, Accumulator.Stump.Commits.empty⟩
  · have hcount : (s.numLeaves + 1).toNat = 0 := by
      rw [List.length_append, List.length_singleton, ← hcommits.numLeaves, hbelow.numLeaves] at hfull
      rw [UInt64.toNat_add]
      exact (congrArg (· % 2 ^ 64) hfull).trans (Nat.mod_self _)
    exact (UInt64.toNat_inj.mp hcount).symm
  · rw [← hadd.rootAt k hk]
    have hpeak := Accumulator.carry_spec t.roots (f x) hcommits.rootAt k
    have hnone : peak parent' k (L ++ [f x]) = none := by
      rw [← Option.not_isSome_iff_eq_none, peak_isSome, hfull,
        Nat.pow_div (Nat.le_of_lt hk) (by decide)]
      have heven : 2 ^ (64 - k) % 2 = 0 := by
        rw [Nat.pow_mod, Nat.mod_self, Nat.zero_pow (Nat.sub_pos_of_lt hk)]
      rw [heven]
      decide
    exact (hpeak.trans hnone).symm

/-- Only the count and the normalised roots matter. -/
theorem CommitsBelow.congr (h : CommitsBelow n f parent' s L) (hn : s'.numLeaves = s.numLeaves)
    (hr : normalize s'.roots = normalize s.roots) : CommitsBelow n f parent' s' L := by
  obtain ⟨t, hbelow, hcommits⟩ := h
  refine ⟨t, ⟨hbelow.numLeaves.trans hn.symm, fun k hk => ?_⟩, hcommits⟩
  rw [hbelow.rootAt k hk, Stump.rootAt, Stump.rootAt, Accumulator.normalize_eq_iff.mp hr]

/-- The shape: a root at each bit of the count. -/
theorem CommitsBelow.occupied {L : List Unit}
    (h : CommitsBelow n (fun _ => ()) (fun _ _ => ()) s L) {k : ℕ} (hk : k < n) :
    (s.rootAt k).isSome ↔ s.numLeaves.toNat.testBit k = true := by
  obtain ⟨t, hbelow, hcommits⟩ := h
  have hsome : (t.rootAt k).isSome = (s.rootAt k).isSome := by
    rw [hbelow.rootAt k hk, Option.isSome_map]
  rw [← hsome, hcommits.rootAt k, peak_isSome, ← hcommits.numLeaves, hbelow.numLeaves,
    Nat.testBit_eq_decide_div_mod_eq, decide_eq_true_iff]

end Stump

/-! ## A block -/

section

variable {H K : Type} [DecidableEq H] [DecidableEq K] {hs : Hashing H} {n : ℕ} {f : H → K}
  {parent' : K → K → K} {stump stump' : Stump H} {L : List K}

/-- Accepted deletes take the images of their leaves out of the list. -/
theorem deleteAll_below (hinj : PairInjective parent')
    (hf : ∀ a b, f (hs.parent a b) = parent' (f a) (f b)) (hn : 64 ≤ n)
    {ps : List (H × Bip30Del H)} (hL : Stump.CommitsBelow n f parent' stump L) (h : deleteAll hs stump ps = some stump') :
    ∃ L', Stump.CommitsBelow n f parent' stump' L' ∧
      (↑L : Multiset K) = ↑(ps.map fun p => f p.1) + ↑L' := by
  induction ps generalizing stump L with
  | nil =>
    obtain rfl := Option.some.inj h
    exact ⟨L, hL, (zero_add _).symm⟩
  | cons p ps ih =>
    rw [deleteAll, List.foldlM_cons] at h
    obtain ⟨stump₁, hstep, h⟩ := Option.bind_eq_some_iff.mp h
    obtain ⟨hget, hL₁⟩ := hL.delete hinj hf hn (deleteAccepted_eq_some.mp hstep)
    obtain ⟨L', hcommits, hsplit⟩ := ih hL₁ h
    refine ⟨L', hcommits, ?_⟩
    calc (↑L : Multiset K) = f p.1 ::ₘ ↑(swapRemove L p.2.globalPos.toNat) :=
          (Multiset.coe_eq_coe.mpr (cons_swapRemove_perm hget)).symm
      _ = f p.1 ::ₘ (↑(ps.map fun p => f p.1) + ↑L') := by rw [hsplit]
      _ = ↑((p :: ps).map fun p => f p.1) + ↑L' := by
          rw [List.map_cons, ← Multiset.cons_coe, Multiset.cons_add]

omit [DecidableEq H] [DecidableEq K] in
/-- Appends put the images of their leaves in, unless the count wraps. -/
theorem addAll_below (hf : ∀ a b, f (hs.parent a b) = parent' (f a) (f b)) (ls : List H)
    (hn : n = 64 ∨ L.length + ls.length < 2 ^ 64) (hL : Stump.CommitsBelow n f parent' stump L) :
    ∃ L', Stump.CommitsBelow n f parent' (addAll hs stump ls) L' ∧
      (↑L' : Multiset K) ≤ ↑(L ++ ls.map f) := by
  induction ls generalizing stump L with
  | nil => exact ⟨L, hL, by rw [List.map_nil, List.append_nil]⟩
  | cons l ls ih =>
    rw [List.length_cons] at hn
    by_cases hlen : L.length + 1 < 2 ^ 64
    · have hlen' : n = 64 ∨ (L ++ [f l]).length + ls.length < 2 ^ 64 := by
        rw [List.length_append, List.length_singleton, Nat.add_assoc, Nat.add_comm 1]
        exact hn
      obtain ⟨L', hcommits, hle⟩ := ih hlen' (hL.add hf l hlen)
      refine ⟨L', hcommits, hle.trans (le_of_eq ?_)⟩
      rw [List.append_assoc, List.map_cons, List.singleton_append]
    · obtain rfl : n = 64 := hn.resolve_right fun h =>
        hlen (lt_of_le_of_lt (Nat.add_le_add_left (Nat.le_add_left _ _) _) h)
      obtain ⟨L', hcommits, hle⟩ := ih (.inl rfl) (hL.add_wrap hf l hlen)
      refine ⟨L', hcommits, hle.trans (Multiset.coe_le.mpr (List.Sublist.subperm ?_))⟩
      rw [List.nil_append, List.map_cons]
      exact (List.sublist_cons_self _ _).trans (List.sublist_append_right _ _)

variable {core : Core} {w : BlockWitness H} {mtp : UInt32} {chunks : Chunks H} {r : BlockResult H}
  {cb : Transaction} {views : List (TxView H)} {s : LoopState H}

omit [DecidableEq K] in
theorem Validated.keptLeaves_length (hval : Validated hs core w mtp chunks r cb views s stump) :
    (keptLeaves hs core w mtp cb views).length ≤ vecCapacity32 :=
  (List.length_filter_le _ _).trans hval.room

/-- What an accepted block takes out of the list and puts in. -/
theorem Validated.below (hinj : PairInjective parent')
    (hf : ∀ a b, f (hs.parent a b) = parent' (f a) (f b)) (hn : 64 ≤ n)
    (hval : Validated hs core w mtp chunks r cb views s stump)
    (hroom : n = 64 ∨ L.length + vecCapacity32 < 2 ^ 64)
    (hL : Stump.CommitsBelow n f parent' w.rootPrev L) :
    ∃ D L' : List K, (↑L : Multiset K) =
        ↑((blockDeletes hs core w mtp cb views).map fun p => f p.1) + ↑D ∧
      (↑L' : Multiset K) ≤ ↑(D ++ (keptLeaves hs core w mtp cb views).map f) ∧
      Stump.CommitsBelow n f parent' ⟨r.rootNextRoots, r.rootNextLeaves⟩ L' := by
  obtain ⟨D, hD, hsplit⟩ := deleteAll_below hinj hf hn hL hval.deletes
  have hlen : D.length ≤ L.length := by
    have hcard := congrArg Multiset.card hsplit
    rw [Multiset.card_add, Multiset.coe_card, Multiset.coe_card] at hcard
    exact hcard ▸ Nat.le_add_left _ _
  obtain ⟨L', hL', hle⟩ := addAll_below hf (keptLeaves hs core w mtp cb views)
    (hroom.imp_right fun h => lt_of_le_of_lt (Nat.add_le_add hlen hval.keptLeaves_length) h) hD
  refine ⟨D, L', hsplit, hle, hL'.congr ?_ ?_⟩
  · rw [hval.rootNextLeaves, hval.internal_spends.2]
  · rw [hval.rootNextRoots, hval.internal_spends.2, Accumulator.normalize_eq_iff]
    exact Accumulator.join_getElem?_normalize _

end

/-! ## From state to state -/

def Boundary.stump {H : Type} (b : Boundary H) : Stump H := ⟨b.roots, b.leaves⟩

section

variable {H K : Type} [DecidableEq H] [DecidableEq K] {hs : Hashing H} {n : ℕ} {f : H → K}
  {parent' : K → K → K} {L : List K} {core : Core} {b b' : Boundary H} {w : BlockWitness H}
  {mtp : UInt32} {chunks : Chunks H} {r : BlockResult H} {cb : Transaction}
  {views : List (TxView H)} {s : LoopState H} {stump : Stump H} {height : UInt32}

omit [DecidableEq H] [DecidableEq K] in
theorem Boundary.Agrees.below (h : b.Agrees b') (hL : Stump.CommitsBelow n f parent' b.stump L) :
    Stump.CommitsBelow n f parent' b'.stump L :=
  hL.congr h.2.2.1.symm h.2.1.symm

/-- What a block takes out and puts in on the way from one state to the next. -/
theorem Extends.below (hinj : PairInjective parent')
    (hf : ∀ a b, f (hs.parent a b) = parent' (f a) (f b)) (hn : 64 ≤ n)
    (hval : Validated hs core w mtp chunks r cb views s stump) (he : Extends core b height w r)
    (hroom : n = 64 ∨ L.length + vecCapacity32 < 2 ^ 64)
    (hL : Stump.CommitsBelow n f parent' b.stump L) :
    ∃ D L' : List K, (↑L : Multiset K) =
        ↑((blockDeletes hs core w mtp cb views).map fun p => f p.1) + ↑D ∧
      (↑L' : Multiset K) ≤ ↑(D ++ (keptLeaves hs core w mtp cb views).map f) ∧
      Stump.CommitsBelow n f parent' (b.next height r).stump L' :=
  hval.below hinj hf hn hroom (hL.congr he.leaves he.roots)

end

end Guest
end Hazync
