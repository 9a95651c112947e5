import Hazync.Hashing
import Hazync.Lib.SparseTree

/-!
# The roots-only half of the coinbase SMT (`coinbase-smt/src/roots.rs`)

A tree with one slot for each 32-byte key, 256 levels deep. The guest holds a root only; a
proof is the bitmap of the levels whose sibling is not the empty subtree's, and those siblings.
`computeRoot` is a climb of `SparseTree` with the siblings `Proof.expand` reads out of the
proof, which do not depend on the value, so a proof that verifies also carries the update.

## Compressed proofs

A proof has a sibling for each of 256 levels, and nearly all of them are empty subtrees. So it is
sent as a bitmap, with the siblings that are not empty. Reading it can fail in one way only: the
bitmap marks more levels than there are siblings, or fewer. A sibling that is listed although it is
empty is accepted. It is a longer proof of the same thing.

The proof does not say what it proves. The same proof is folded once with the old value of the key,
which must give the root that one has, and once with the new value, which gives the next root. What
this is worth depends on the siblings being the same in both; they are, since they are read out of
the proof before the value comes in (`computeRoot_eq`). So if the first fold arrives at the root of
a map, the second arrives at the root of the map with the key changed (`computeRoot_sound`), and
here nodes have to be told apart. Slots have to be told apart for the old value to be the map's.

What a verifier holds is one root. The map behind it is nowhere but in the statements. That a root
has one map only is `mapRoot_injective`.
-/

namespace Hazync
namespace Smt

open ByteStrings SparseTree

variable {H : Type} (hs : Hashing H)

/-- Tree depth: one level for each bit of the key. -/
def DEPTH : ℕ := 256

/-- A leaf has its key and its count. -/
def hashLeaf (key : Bytes32) (value : UInt32) : H :=
  hs.sha256 (TAG_SMT_LEAF :: (key.toList ++ le32 value))

/-- An inner node has the roots of its two halves. -/
def hashNode (left right : H) : H :=
  hs.sha256 (TAG_SMT_NODE :: (hs.bytes left ++ hs.bytes right))

/-- `empty_hashes()[d]`: the root of an empty subtree of height `d`. -/
def emptyHash : ℕ → H
  | 0 => hs.zero
  | d + 1 => hashNode hs (emptyHash d) (emptyHash d)

/-- The root of the tree without leaves. -/
def emptyRoot : H := emptyHash hs DEPTH

/-- Bit `i` of a key or a bitmap, the first bit of each byte first. -/
def bit (key : Bytes32) (i : ℕ) : Bool :=
  ((key.toList.getD (i / 8) 0) >>> UInt8.ofNat (7 - i % 8)) &&& 1 == 1

/-- An inclusion or non-inclusion proof: the siblings that are not empty, from the root down. -/
structure Proof (H : Type) where
  bitmap : Bytes32
  siblings : List H
  deriving DecidableEq

/-- Is the sibling at this depth listed? -/
def Proof.has (proof : Proof H) (depth : ℕ) : Bool := bit proof.bitmap depth

/-- The loop of `compute_root` over the levels below `d`, downwards, with `idx` siblings left.
    `none` is a bitmap that claims more siblings than there are, or fewer. -/
def computeRootLoop (key : Bytes32) (proof : Proof H) : ℕ → H → ℕ → Option H
  | 0, node, idx => if idx ≠ 0 then none else some node
  | d + 1, node, idx =>
    let fold (sib : H) := if bit key d then hashNode hs sib node else hashNode hs node sib
    if proof.has d then
      if idx = 0 then none
      else do
        let sib ← proof.siblings[idx - 1]?
        computeRootLoop key proof d (fold sib) (idx - 1)
    else computeRootLoop key proof d (fold (emptyHash hs (DEPTH - 1 - d))) idx

/-- What the slot of `key` holds: `None` is the empty slot. -/
def slot (key : Bytes32) : Option UInt32 → H
  | some v => hashLeaf hs key v
  | none => emptyHash hs 0

/-- The root that the proof gives the value. -/
def computeRoot (key : Bytes32) (value : Option UInt32) (proof : Proof H) : Option H :=
  computeRootLoop hs key proof DEPTH (slot hs key value) proof.siblings.length

variable [DecidableEq H]

/-- Whether `key` maps to `value`, or to nothing, under `root`. -/
def verify (root : H) (key : Bytes32) (value : Option UInt32) (proof : Proof H) : Bool :=
  computeRoot hs key value proof = some root

/-- The root after `key` goes from `old` to `new`, given a proof of `old`. -/
def apply (root : H) (key : Bytes32) (old new : Option UInt32) (proof : Proof H) : Option H :=
  if ¬ verify hs root key old proof then none else computeRoot hs key new proof

omit [DecidableEq H]

/-! ## The tree behind the root -/

/-- The directions taken down to depth `d`. -/
def path (d : ℕ) (key : Bytes32) : List Bool := (List.range d).map (bit key)

/-- A path has as many directions as levels. -/
@[simp] theorem length_path (d : ℕ) (key : Bytes32) : (path d key).length = d := by simp [path]

/-- One level more. -/
theorem path_succ (d : ℕ) (key : Bytes32) : path (d + 1) key = path d key ++ [bit key d] := by
  rw [path, List.range_succ, List.map_append]
  rfl

/-- A bit of a byte. -/
theorem shiftRight_and_one (b : UInt8) {t : ℕ} (ht : t < 8) :
    ((b >>> UInt8.ofNat t) &&& 1 == 1) = b.toNat.testBit t := by
  have hmod : t % 2 ^ 8 % 8 = t := by
    rw [Nat.mod_eq_of_lt (lt_of_lt_of_le ht (by decide)), Nat.mod_eq_of_lt ht]
  rw [Bool.eq_iff_iff, beq_iff_eq, Nat.testBit, bne_iff_ne, ← UInt8.toNat_inj,
    UInt8.toNat_and, UInt8.toNat_shiftRight, UInt8.toNat_ofNat', hmod, UInt8.toNat_one,
    Nat.and_one_is_mod, Nat.one_and_eq_mod_two]
  exact Nat.mod_two_ne_zero.symm

/-- A byte is its bits. -/
theorem byte_ext {b c : UInt8} (h : ∀ t < 8, b.toNat.testBit t = c.toNat.testBit t) : b = c := by
  refine UInt8.toNat_inj.mp (Nat.eq_of_testBit_eq fun t => ?_)
  by_cases ht : t < 8
  · exact h t ht
  · have hpow : 2 ^ 8 ≤ 2 ^ t := Nat.pow_le_pow_right (by decide) (by lia)
    rw [Nat.testBit_lt_two_pow (lt_of_lt_of_le b.toNat_lt hpow),
      Nat.testBit_lt_two_pow (lt_of_lt_of_le c.toNat_lt hpow)]

/-- Bit `i` of an array is a bit of its byte `i / 8`. -/
theorem bit_eq (key : Bytes32) {i : ℕ} (hi : i / 8 < 32) :
    bit key i = (key.get ⟨i / 8, hi⟩).toNat.testBit (7 - i % 8) := by
  have hget : key.toList.getD (i / 8) 0 = key.get ⟨i / 8, hi⟩ := by
    rw [List.getD_eq_getElem _ _ (by simpa using hi), List.Vector.get_eq_get_toList]
    rfl
  rw [bit, hget, shiftRight_and_one _ (by lia)]

/-- A bit of a byte is a bit of the array. -/
theorem testBit_get (key : Bytes32) {j t : ℕ} (hj : j < 32) (ht : t < 8) :
    (key.get ⟨j, hj⟩).toNat.testBit t = bit key (8 * j + (7 - t)) := by
  have hq : (8 * j + (7 - t)) / 8 = j := by omega
  have hr : 7 - (8 * j + (7 - t)) % 8 = t := by omega
  have hbyte : (8 * j + (7 - t)) / 8 < 32 := hq.trans_lt hj
  have hfin : (⟨_, hbyte⟩ : Fin 32) = ⟨j, hj⟩ := Fin.ext hq
  rw [bit_eq key hbyte, hr, hfin]

/-- Keys with the same bits are the same. -/
theorem key_ext {k l : Bytes32} (h : ∀ i < DEPTH, bit k i = bit l i) : k = l := by
  refine List.Vector.ext fun j => byte_ext fun t ht => ?_
  have hj := j.isLt
  have hdepth : 8 * j.val + (7 - t) < DEPTH := by
    rw [DEPTH]
    lia
  exact (testBit_get k hj ht).trans ((h _ hdepth).trans (testBit_get l hj ht).symm)

/-- Two paths are the same where the bits are. -/
theorem path_eq_iff {d : ℕ} {k l : Bytes32} :
    path d k = path d l ↔ ∀ i < d, bit k i = bit l i := by
  rw [path, path, List.map_inj_left]
  simp only [List.mem_range]

/-- Every key has a slot of its own. -/
theorem path_injective : Function.Injective (path DEPTH) :=
  fun _ _ h => key_ext (path_eq_iff.mp h)

/-- The siblings a proof stands for at the levels below `d`, from the top. -/
def Proof.expandLoop (proof : Proof H) : ℕ → ℕ → Option (List H)
  | 0, idx => if idx ≠ 0 then none else some []
  | d + 1, idx =>
    if proof.has d then
      if idx = 0 then none
      else do
        let sib ← proof.siblings[idx - 1]?
        let above ← expandLoop proof d (idx - 1)
        some (above ++ [sib])
    else (expandLoop proof d idx).map (· ++ [emptyHash hs (DEPTH - 1 - d)])

/-- All the siblings of a proof, or `none` when the bitmap does not fit their number. -/
def Proof.expand (proof : Proof H) : Option (List H) :=
  proof.expandLoop hs DEPTH proof.siblings.length

variable {hs}

/-- There is one sibling for each level. -/
theorem Proof.length_expandLoop {proof : Proof H} {d idx : ℕ} {ss : List H}
    (h : proof.expandLoop hs d idx = some ss) : ss.length = d := by
  induction d generalizing idx ss with
  | zero =>
    rw [expandLoop] at h
    split at h
    · cases h
    · cases h
      rfl
  | succ d ih =>
    rw [expandLoop] at h
    split at h
    · split at h
      · cases h
      · obtain ⟨sib, -, h⟩ := Option.bind_eq_some_iff.mp h
        obtain ⟨above, habove, h⟩ := Option.bind_eq_some_iff.mp h
        cases h
        rw [List.length_append, ih habove, List.length_singleton]
    · obtain ⟨above, habove, rfl⟩ := Option.map_eq_some_iff.mp h
      rw [List.length_append, ih habove, List.length_singleton]

/-- The loop is a climb, with the siblings as they are read. -/
theorem computeRootLoop_eq (key : Bytes32) (proof : Proof H) (d : ℕ) (node : H) (idx : ℕ) :
    computeRootLoop hs key proof d node idx =
      (proof.expandLoop hs d idx).map fun ss => climb (hashNode hs) (path d key) ss node := by
  induction d generalizing node idx with
  | zero =>
    rw [computeRootLoop, Proof.expandLoop]
    split <;> rfl
  | succ d ih =>
    have hstep : ∀ (sib : H) (above : Option (List H)),
        (∀ ss ∈ above, ss.length = d) →
        (above.map fun ss => climb (hashNode hs) (path d key) ss
          (if bit key d then hashNode hs sib node else hashNode hs node sib)) =
        (above.map (· ++ [sib])).map fun ss => climb (hashNode hs) (path (d + 1) key) ss node := by
      intro sib above hlen
      cases above with
      | none => rfl
      | some ss =>
        simp only [Option.map_some, path_succ]
        rw [climb_concat (by rw [length_path, hlen ss rfl])]
        rfl
    rw [computeRootLoop, Proof.expandLoop]
    split
    · split
      · rfl
      · cases proof.siblings[idx - 1]? with
        | none => rfl
        | some sib =>
          rw [Option.bind_eq_bind, Option.bind_some, ih,
            hstep sib _ fun ss hss => Proof.length_expandLoop hss]
          cases proof.expandLoop hs d (idx - 1) <;> rfl
    · rw [ih, hstep _ _ fun ss hss => Proof.length_expandLoop hss]

/-- The fold of a proof is a climb with siblings that do not depend on the value. -/
theorem computeRoot_eq (key : Bytes32) (value : Option UInt32) (proof : Proof H) :
    computeRoot hs key value proof = (proof.expand hs).map fun ss =>
      climb (hashNode hs) (path DEPTH key) ss (slot hs key value) :=
  computeRootLoop_eq key proof DEPTH _ _

/-- A map from coinbase txids to unspent output counts. Nothing maps to zero in the tree. -/
abbrev Counts := Bytes32 → Option UInt32

variable (hs) in
/-- The root of the tree of a map. -/
noncomputable def mapRoot (m : Counts) : H :=
  SparseTree.mapRoot (hashNode hs) (path DEPTH) DEPTH (emptyHash hs 0) fun k => slot hs k (m k)

variable (hs) in
/-- The leaf hash tells values apart, and no leaf hashes to the empty slot. -/
def SlotInjective : Prop := ∀ key, Function.Injective (slot hs key)

/-- It is enough that leaves are told apart, and from the empty slot. -/
theorem slotInjective (hleaf : ∀ k v k' v', hashLeaf hs k v = hashLeaf hs k' v' → k = k' ∧ v = v')
    (hempty : ∀ k v, hashLeaf hs k v ≠ hs.zero) : SlotInjective hs := by
  intro key v w h
  cases v with
  | none =>
    cases w with
    | none => rfl
    | some w => exact absurd h.symm (hempty key w)
  | some v =>
    cases w with
    | none => exact absurd h (hempty key v)
    | some w => rw [(hleaf _ _ _ _ h).2]

variable (hs) in
/-- Nodes are told apart. -/
abbrev NodeInjective : Prop := MerkleForest.PairInjective (hashNode hs)

/-- The slots after one value has changed. -/
theorem slot_update (m : Counts) (key : Bytes32) (value : Option UInt32) :
    (fun k => slot hs k (Function.update m key value k)) =
      Function.update (fun k => slot hs k (m k)) key (slot hs key value) := by
  funext k
  by_cases hk : k = key
  · subst hk
    rw [Function.update_self, Function.update_self]
  · rw [Function.update_of_ne hk, Function.update_of_ne hk]

/-- **A proof that verifies pins the value of its key and carries any update of it.** -/
theorem computeRoot_sound (hnode : NodeInjective hs) (hslot : SlotInjective hs) {m : Counts}
    {key : Bytes32} {old : Option UInt32} {proof : Proof H}
    (h : computeRoot hs key old proof = some (mapRoot hs m)) :
    old = m key ∧ ∀ new, computeRoot hs key new proof =
      some (mapRoot hs (Function.update m key new)) := by
  rw [computeRoot_eq] at h
  obtain ⟨ss, hss, hclimb⟩ := Option.map_eq_some_iff.mp h
  obtain ⟨hvalue, hupdate⟩ := climb_update hnode path_injective (length_path DEPTH key)
    (Proof.length_expandLoop hss) hclimb
  refine ⟨hslot key hvalue, fun new => ?_⟩
  rw [computeRoot_eq, hss, Option.map_some, hupdate, mapRoot, slot_update]

/-! ## Proofs that list every sibling -/

/-- Every level marked and every sibling listed: not the compressed form the host sends, and
    accepted like it. -/
noncomputable def Proof.full (hs : Hashing H) (m : Counts) (key : Bytes32) : Proof H where
  bitmap := List.Vector.replicate 32 255
  siblings := mapSiblings (hashNode hs) (path DEPTH) (emptyHash hs 0)
    (fun k => slot hs k (m k)) key

/-- Every level is marked. -/
theorem bit_ones {i : ℕ} (hi : i < DEPTH) : bit (List.Vector.replicate 32 255) i = true := by
  have hbyte : i / 8 < 32 := Nat.div_lt_of_lt_mul hi
  have hones : ∀ t < 8, ((255 : UInt8) >>> UInt8.ofNat t) &&& 1 = 1 := by decide
  have hget : (List.Vector.replicate 32 (255 : UInt8)).toList.getD (i / 8) 0 = 255 := by
    rw [show (List.Vector.replicate 32 (255 : UInt8)).toList = List.replicate 32 255 from rfl,
      List.getD_eq_getElem?_getD, List.getElem?_replicate_of_lt hbyte, Option.getD_some]
  rw [bit, beq_iff_eq, hget, hones _ (by lia)]

/-- And every sibling is read. -/
theorem Proof.expandLoop_ones (ss : List H) {d : ℕ} (hd : d ≤ DEPTH) (hlen : d ≤ ss.length) :
    Proof.expandLoop hs ⟨List.Vector.replicate 32 255, ss⟩ d d = some (ss.take d) := by
  induction d with
  | zero => rfl
  | succ d ih =>
    have hget : ss[d]? = some (ss.get ⟨d, hlen⟩) := List.getElem?_eq_getElem hlen
    rw [expandLoop, Proof.has, if_pos (bit_ones hd), if_neg (Nat.succ_ne_zero d),
      Nat.add_sub_cancel, hget, Option.bind_eq_bind, Option.bind_some,
      ih (Nat.le_of_succ_le hd) (Nat.le_of_succ_le hlen), Option.bind_eq_bind, Option.bind_some,
      List.take_add_one, hget]
    rfl

/-- The siblings of the proof are those listed. -/
theorem Proof.expand_full (m : Counts) (key : Bytes32) :
    (Proof.full hs m key).expand hs = some (Proof.full hs m key).siblings := by
  have hlen : (Proof.full hs m key).siblings.length = DEPTH := by
    rw [full, mapSiblings, length_siblings, length_path]
  have h := @Proof.expandLoop_ones _ hs (Proof.full hs m key).siblings DEPTH le_rfl hlen.ge
  rw [List.take_of_length_le hlen.le] at h
  rw [expand, hlen]
  exact h

/-- It folds any value of the key. -/
theorem computeRoot_full (m : Counts) (key : Bytes32) (new : Option UInt32) :
    computeRoot hs key new (Proof.full hs m key) =
      some (mapRoot hs (Function.update m key new)) := by
  rw [computeRoot_eq, Proof.expand_full, Option.map_some, Proof.full,
    climb_mapSiblings_update path_injective (length_path DEPTH key), mapRoot, slot_update]

variable [DecidableEq H]

/-- It is accepted. -/
theorem verify_full (m : Counts) (key : Bytes32) :
    verify hs (mapRoot hs m) key (m key) (Proof.full hs m key) = true := by
  rw [verify, computeRoot_full, Function.update_eq_self, decide_eq_true_iff]

/-! ## Proofs of any form -/

/-- A proof that is accepted says what the map has. -/
theorem verify_sound (hnode : NodeInjective hs) (hslot : SlotInjective hs) {m : Counts}
    {key : Bytes32} {old : Option UInt32} {proof : Proof H}
    (h : verify hs (mapRoot hs m) key old proof = true) : old = m key :=
  (computeRoot_sound hnode hslot (of_decide_eq_true h)).1

/-- A root is the root of one map only. -/
theorem mapRoot_injective (hnode : NodeInjective hs) (hslot : SlotInjective hs) :
    Function.Injective (mapRoot hs) := by
  intro m m' h
  funext k
  have hk : verify hs (mapRoot hs m') k (m k) (Proof.full hs m k) = true := by
    rw [← h]
    exact verify_full m k
  exact verify_sound hnode hslot hk

/-- And so does an update. -/
theorem apply_sound (hnode : NodeInjective hs) (hslot : SlotInjective hs) {m : Counts}
    {key : Bytes32} {old new : Option UInt32} {proof : Proof H} {r : H}
    (h : apply hs (mapRoot hs m) key old new proof = some r) :
    old = m key ∧ r = mapRoot hs (Function.update m key new) := by
  rw [apply] at h
  split at h
  · cases h
  · rename_i hv
    obtain ⟨hold, hnew⟩ := computeRoot_sound hnode hslot (of_decide_eq_true (not_not.mp hv))
    rw [hnew] at h
    exact ⟨hold, (Option.some.inj h).symm⟩

end Smt
end Hazync
