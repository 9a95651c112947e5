import Hazync.Smt.Full

/-!
# Histories of the coinbase SMT and the proofs it gives

A state that is `Cached` answers by its map alone: its root and its proofs are those computed from
scratch (`rootNaive_eq`; `Cached.prove_eq` and `proveNaive_eq`), and the proof of any key, sent
through the guest's `computeRoot`, stands for the siblings of the key (`Cached.expand_prove`).

## Two ways to prove

The host has the proof of a key in two ways: from the stored nodes and the leaves, and from scratch,
by splitting the list of all leaves along the key. The second is the reference. Both push the
siblings of the key one by one, from the root down, and leave out the empty ones; so it is enough
that the siblings are the same (`Cached.siblingAt_eq`, `NaiveAt.step`).

The guest reads the siblings the other way, from the bottom up, taking the last one first, and puts
the empty ones in where the bitmap says so. `expandLoop_pushed` is the round trip. From there on, a
proof is a list of 256 siblings, and the results are those of the climb.

## What a proof decides

Together with the soundness of proofs of any form this gives both directions. For a root that is the
tree's, the tree's own proof of a key is accepted with the count that the key has, or as a proof of
absence; and no proof at all is accepted with anything else. The same holds for updates: the new
root is that of the changed map, for the proof of the host and for any other.
-/

namespace Hazync
namespace Smt

open ByteStrings SparseTree

variable {H : Type} {hs : Hashing H} {m : Counts} {d : ℕ} {key : Bytes32}

/-! ## A proof pushed sibling by sibling -/

section Pushed

variable [DecidableEq H] (hs) (sib : ℕ → H)

/-- The proof after the depths above `d`. -/
def pushed (d : ℕ) : Proof H :=
  (List.range d).foldl (fun proof i => proof.push hs i (sib i)) .nil

/-- One depth more. -/
theorem pushed_succ (d : ℕ) : pushed hs sib (d + 1) = (pushed hs sib d).push hs d (sib d) := by
  rw [pushed, List.range_succ, List.foldl_concat]
  rfl

/-- The bitmap begins with no mark. -/
theorem bit_zeros {i : ℕ} (hi : i < DEPTH) : bit (List.Vector.replicate 32 0) i = false := by
  rw [bit_eq _ (Nat.div_lt_of_lt_mul hi), List.Vector.get_replicate, UInt8.toNat_zero,
    Nat.zero_testBit]

/-- The bitmap marks the depths so far whose sibling is not empty. -/
theorem bit_pushed (d : ℕ) {i : ℕ} (hi : i < DEPTH) :
    bit (pushed hs sib d).bitmap i = (decide (i < d) && decide (sib i ≠ emptyHash hs (DEPTH - 1 - i))) := by
  induction d with
  | zero => exact bit_zeros hi
  | succ d ih =>
    rw [pushed_succ, Proof.push]
    by_cases hid : i = d
    · subst hid
      by_cases hsib : sib i = emptyHash hs (DEPTH - 1 - i)
      · rw [if_neg (not_not.mpr hsib), ih]
        simp [hsib]
      · rw [if_pos hsib, bit_setBit _ _ hi]
        simp [hsib]
    · have hlt : decide (i < d + 1) = decide (i < d) := decide_eq_decide.mpr (by omega)
      rw [hlt]
      split
      · rw [bit_setBit _ _ hi, decide_eq_false hid, Bool.or_false, ih]
      · exact ih

/-- What was pushed stays in front. -/
theorem siblings_pushed_prefix {d d' : ℕ} (h : d ≤ d') :
    (pushed hs sib d).siblings <+: (pushed hs sib d').siblings := by
  induction d', h using Nat.le_induction with
  | base => exact List.prefix_rfl
  | succ d' hd ih =>
    rw [pushed_succ, Proof.push]
    split
    · exact ih.trans (List.prefix_append _ _)
    · exact ih

/-- The walk that consumes the siblings from the end gets back the siblings pushed. -/
theorem expandLoop_pushed {d : ℕ} (hd : d ≤ DEPTH) :
    (pushed hs sib DEPTH).expandLoop hs d (pushed hs sib d).siblings.length =
      some ((List.range d).map sib) := by
  induction d with
  | zero => rfl
  | succ d ih =>
    have hlt : d < DEPTH := hd
    have hhas : (pushed hs sib DEPTH).has d = decide (sib d ≠ emptyHash hs (DEPTH - 1 - d)) := by
      rw [Proof.has, bit_pushed hs sib _ hlt, decide_eq_true hlt, Bool.true_and]
    rw [Proof.expandLoop, hhas, List.range_succ, List.map_append, List.map_singleton]
    by_cases hsib : sib d = emptyHash hs (DEPTH - 1 - d)
    · have hsame : pushed hs sib (d + 1) = pushed hs sib d := by
        rw [pushed_succ, Proof.push, if_neg (not_not.mpr hsib)]
      rw [if_neg (by simpa using hsib), hsame, ih hlt.le, ← hsib]
      rfl
    · have hmore : (pushed hs sib (d + 1)).siblings = (pushed hs sib d).siblings ++ [sib d] := by
        rw [pushed_succ, Proof.push, if_pos hsib]
      have hget : (pushed hs sib DEPTH).siblings[(pushed hs sib d).siblings.length]? =
          some (sib d) := by
        obtain ⟨rest, hrest⟩ := siblings_pushed_prefix hs sib hd
        rw [← hrest, hmore, List.append_assoc, List.getElem?_append_right le_rfl, Nat.sub_self]
        rfl
      rw [if_pos (by simpa using hsib), hmore, List.length_append, List.length_singleton,
        if_neg (Nat.succ_ne_zero _), Nat.add_sub_cancel, hget, Option.bind_eq_bind,
        Option.bind_some, ih hlt.le]
      rfl

/-- All of them. -/
theorem expand_pushed :
    (pushed hs sib DEPTH).expand hs = some ((List.range DEPTH).map sib) :=
  expandLoop_pushed hs sib le_rfl

end Pushed

/-! ## The siblings of a key -/

variable (hs) in
/-- The sibling of the child of `key` at depth `d + 1`. -/
noncomputable def sibling (m : Counts) (key : Bytes32) (d : ℕ) : H :=
  region hs m (path d key ++ [!bit key d])

/-- A direction of the path. -/
theorem getElem?_path {d i : ℕ} (h : i < d) (key : Bytes32) :
    (path d key)[i]? = some (bit key i) := by
  rw [path, List.getElem?_map, List.getElem?_range h]
  rfl

/-- The upper part of a path. -/
theorem take_path {d i : ℕ} (h : i ≤ d) (key : Bytes32) : (path d key).take i = path i key := by
  rw [path, path, ← List.map_take, List.take_range, Nat.min_eq_left h]

/-- The siblings of a key, from the root down, are those a proof lists in full. -/
theorem map_sibling (m : Counts) (key : Bytes32) :
    (List.range DEPTH).map (sibling hs m key) = (Proof.full hs m key).siblings := by
  refine List.ext_getElem? fun i => ?_
  rcases Nat.lt_or_ge i DEPTH with hi | hi
  · rw [List.getElem?_map, List.getElem?_range hi, Option.map_some, Proof.full, mapSiblings,
      getElem?_siblings _ _ (getElem?_path hi key), length_path, take_path hi.le, List.nil_append,
      sibling, region, List.length_append, length_path]
    rfl
  · have hfull : (Proof.full hs m key).siblings.length = DEPTH := by
      rw [Proof.full, mapSiblings, length_siblings, length_path]
    rw [List.getElem?_eq_none (by simpa using hi), List.getElem?_eq_none (hfull.trans_le hi)]

variable [DecidableEq H] {s : Smt H}

/-- The sibling that the tree finds is the sibling. -/
theorem Cached.siblingAt_eq (h : s.Cached hs) (hd : d < DEPTH) :
    s.siblingAt hs key d = sibling hs s.get key d := by
  rw [siblingAt]
  split
  · rename_i hcache
    exact siblingCached_eq hcache (h.nodes _ _)
  · rw [subtree_under s hd, path_flipBit hd]
    rfl

/-- The proof the tree gives lists the siblings of its key. -/
theorem Cached.prove_eq (h : s.Cached hs) (key : Bytes32) :
    s.prove hs key = pushed hs (sibling hs s.get key) DEPTH :=
  List.foldl_ext _ _ _ fun proof d hd =>
    congrArg (proof.push hs d) (h.siblingAt_eq (List.mem_range.mp hd))

/-! ## The reference proof -/

/-- A window is cut in two. -/
theorem window_split (items : List (Bytes32 × UInt32)) {lo hi n : ℕ}
    (hn : n ≤ (window items lo hi).length) :
    window items lo (lo + n) = (window items lo hi).take n ∧
      window items (lo + n) hi = (window items lo hi).drop n := by
  have hfit : n ≤ hi - lo := by
    rw [window, List.length_drop, List.length_take] at hn
    omega
  constructor
  · rw [window, window, List.drop_take, List.drop_take, List.take_take, Nat.min_eq_left hfit,
      Nat.add_sub_cancel_left]
  · rw [window, window, List.drop_drop]

/-- A cut is within the list. -/
theorem partitionPoint_le {α : Type} (p : α → Bool) (xs : List α) :
    SortedMap.partitionPoint p xs ≤ xs.length :=
  (List.takeWhile_sublist p).length_le

variable (hs) in
/-- What `prove_naive` knows after the depths above `d`. -/
structure NaiveAt (s : Smt H) (key : Bytes32) (d : ℕ) (acc : Proof H × ℕ × ℕ) : Prop where
  proof : acc.1 = pushed hs (sibling hs s.get key) d
  below : Below s.get (path d key) (window s.leaves.entries acc.2.1 acc.2.2)

/-- One level down, the window is that of the path. -/
theorem NaiveAt.step {acc : Proof H × ℕ × ℕ} (h : NaiveAt hs s key d acc)
    (hd : d < DEPTH) :
    NaiveAt hs s key (d + 1) (proveNaiveStep hs s.leaves.entries key acc d) := by
  obtain ⟨proof, lo, hi⟩ := acc
  obtain ⟨hproof, hbelow⟩ := h
  have hlen : (path d key).length < DEPTH := by rwa [length_path]
  have hsplit := hbelow.split hlen
  rw [length_path] at hsplit
  obtain ⟨hleft, hright⟩ := hsplit
  obtain ⟨hwl, hwr⟩ := window_split s.leaves.entries
    (partitionPoint_le (fun e => !bit e.1 d) (window s.leaves.entries lo hi))
  have hsib : ∀ {b : Bool} {items : List (Bytes32 × UInt32)},
      Below s.get (path d key ++ [b]) items →
      subtree hs items (d + 1) = region hs s.get (path d key ++ [b]) := by
    intro b items hb
    refine hb.subtreeLoop_eq ?_
    rw [List.length_append, length_path, List.length_singleton]
    omega
  rw [proveNaiveStep]
  cases hbit : bit key d with
  | false =>
    have hother : subtree hs (window s.leaves.entries
        (lo + SortedMap.partitionPoint (fun e => !bit e.1 d) (window s.leaves.entries lo hi)) hi)
        (d + 1) = sibling hs s.get key d := by
      rw [hwr, hsib hright, sibling, hbit]
      rfl
    refine ⟨?_, ?_⟩
    · rw [pushed_succ, ← hproof, ← hother]
      rfl
    · rw [path_succ, hbit]
      exact hwl ▸ hleft
  | true =>
    have hother : subtree hs (window s.leaves.entries lo
        (lo + SortedMap.partitionPoint (fun e => !bit e.1 d) (window s.leaves.entries lo hi)))
        (d + 1) = sibling hs s.get key d := by
      rw [hwl, hsib hleft, sibling, hbit]
      rfl
    refine ⟨?_, ?_⟩
    · rw [pushed_succ, ← hproof, ← hother]
      rfl
    · rw [path_succ, hbit]
      exact hwr ▸ hright

/-- And so for all depths. -/
theorem naiveAt (s : Smt H) (key : Bytes32) {d : ℕ} (hd : d ≤ DEPTH) :
    NaiveAt hs s key d ((List.range d).foldl (proveNaiveStep hs s.leaves.entries key)
      (.nil, 0, s.leaves.entries.length)) := by
  induction d with
  | zero =>
    refine ⟨rfl, ?_⟩
    have hall : window s.leaves.entries 0 s.leaves.entries.length = s.leaves.entries := by
      rw [window, List.drop_zero, List.take_length]
    exact hall.symm ▸ s.below_entries
  | succ d ih =>
    rw [List.range_succ, List.foldl_concat]
    exact (ih (Nat.le_of_succ_le hd)).step hd

/-- The reference lists the siblings too. -/
theorem proveNaive_eq (s : Smt H) (key : Bytes32) :
    s.proveNaive hs key = pushed hs (sibling hs s.get key) DEPTH :=
  (naiveAt s key le_rfl).proof

/-! ## Histories -/

/-- One call on the tree. -/
inductive Op
  | insert (key : Bytes32) (value : UInt32)
  | remove (key : Bytes32)
  | fromEntries (entries : List (Bytes32 × UInt32))

variable (hs) in
/-- A call, carried out. -/
def Op.run (s : Smt H) : Op → Smt H
  | .insert key value => s.insert hs key value
  | .remove key => s.remove hs key
  | .fromEntries entries => Smt.fromEntries hs entries

variable (hs) in
/-- The tree after some calls, from empty. -/
def run (ops : List Op) : Smt H := ops.foldl (Op.run hs) (new hs)

/-- After any number of inserts. -/
theorem cached_foldl_insert {s : Smt H} (h : s.Cached hs) (entries : List (Bytes32 × UInt32)) :
    (entries.foldl (fun t e => t.insert hs e.1 e.2) s).Cached hs := by
  induction entries generalizing s with
  | nil => exact h
  | cons e entries ih => exact ih (h.insert e.1 e.2).2

/-- The tree of a list. -/
theorem cached_fromEntries (entries : List (Bytes32 × UInt32)) :
    (fromEntries hs entries).Cached hs :=
  cached_foldl_insert cached_new entries

/-- After a call. -/
theorem Cached.run {s : Smt H} (h : s.Cached hs) (op : Op) : (op.run hs s).Cached hs := by
  cases op with
  | insert key value => exact (h.insert key value).2
  | remove key => exact (h.remove key).2
  | fromEntries entries => exact cached_fromEntries entries

/-- After any calls. -/
theorem cached_run (ops : List Op) : (run hs ops).Cached hs := by
  induction ops using List.reverseRecOn with
  | nil => exact cached_new
  | append_singleton ops op ih =>
    rw [Smt.run, List.foldl_concat]
    exact ih.run op

/-- A tree is its map. -/
theorem Cached.eq_of_get {s s' : Smt H} (h : s.Cached hs) (h' : s'.Cached hs)
    (hget : s.get = s'.get) : s = s' := by
  have hleaves : s.leaves = s'.leaves := SortedMap.ext_get? (congrFun hget)
  have hnodes : s.nodes = s'.nodes := by
    funext ⟨d, pre⟩
    rw [h.nodes, h'.nodes, hget]
  have hroot : s.root = s'.root := by rw [h.root, h'.root, hget]
  cases s
  cases s'
  cases hleaves
  cases hnodes
  cases hroot
  rfl

/-- **The incremental tree is the from-scratch one, over every history.** The cache has an entry
    exactly where a subtree's hash is not the empty one of its height. -/
theorem history (ops : List Op) :
    (run hs ops).root = (run hs ops).rootNaive hs ∧
      (∀ key, (run hs ops).prove hs key = (run hs ops).proveNaive hs key) ∧
      (∀ d pre, (run hs ops).nodes (d, pre) =
        if 1 ≤ d ∧ d ≤ CACHE_DEPTH ∧ mask pre d = pre then
          cacheEntry hs d (subtree hs ((run hs ops).under pre d) d)
        else none) ∧
      ((run hs ops).leaves.entries = [] → (run hs ops).nodes = fun _ => none) ∧
      (∀ e ∈ (run hs ops).leaves.entries, e.2 ≠ 0) ∧
      ∀ ops', (∀ key, (run hs ops').get key = (run hs ops).get key) →
        (run hs ops').root = (run hs ops).root := by
  have h : (run hs ops).Cached hs := cached_run ops
  refine ⟨h.root.trans (rootNaive_eq _).symm,
    fun key => (h.prove_eq key).trans (proveNaive_eq _ key).symm, fun d pre => ?_,
    fun hnil => ?_, fun e he hzero => ?_, fun ops' hsame => ?_⟩
  · rw [h.nodes, node]
    split
    · rename_i hname
      rw [subtree_under _ (hname.2.1.trans cacheDepth_le)]
    · rfl
  · have hnone := SortedMap.entries_eq_nil.mp hnil
    funext name
    obtain ⟨d, pre⟩ := name
    rw [h.nodes, node]
    split
    · have hempty := @region_empty _ hs (run hs ops).get (path d pre) fun k _ => hnone k
      rw [hempty, length_path, cacheEntry, if_pos rfl]
    · rfl
  · exact h.nonzero e.1 ((SortedMap.mem_entries.mp he).trans (congrArg some hzero))
  · rw [(cached_run ops').eq_of_get h (funext hsame)]

/-! ## What the proofs decide -/

variable (hs) in
/-- The root of the 256-level tree of a map. -/
def treeRoot (M : SortedMap Bytes32 UInt32) : H := subtree hs M.entries 0

/-- The map with `key` set to a count, or removed. -/
def setCount (M : SortedMap Bytes32 UInt32) (key : Bytes32) : Option UInt32 → SortedMap Bytes32 UInt32
  | some n => M.insert key n
  | none => M.erase key

/-- The count that was set, and the others. -/
theorem get?_setCount (M : SortedMap Bytes32 UInt32) (key : Bytes32) (value : Option UInt32) :
    (setCount M key value).get? = Function.update M.get? key value := by
  cases value with
  | none => exact SortedMap.get?_erase M key
  | some n => exact SortedMap.get?_insert M key n

omit [DecidableEq H] in
/-- It is the root of the map. -/
theorem treeRoot_eq (M : SortedMap Bytes32 UInt32) : treeRoot hs M = mapRoot hs M.get? :=
  rootNaive_eq (⟨M, fun _ => none, emptyRoot hs⟩ : Smt H)

/-- The tree's proof stands for the siblings of the key. -/
theorem Cached.expand_prove (h : s.Cached hs) (key : Bytes32) :
    (s.prove hs key).expand hs = some (Proof.full hs s.get key).siblings := by
  rw [h.prove_eq, expand_pushed, map_sibling]

/-- The tree's own proof folds any value of its key to the root of the map with that value. -/
theorem Cached.computeRoot_prove (h : s.Cached hs) (key : Bytes32) (new : Option UInt32) :
    computeRoot hs key new (s.prove hs key) = some (mapRoot hs (Function.update s.get key new)) := by
  rw [← computeRoot_full, computeRoot_eq, computeRoot_eq, h.expand_prove, Proof.expand_full]

/-- It is accepted. -/
theorem Cached.verify_prove (h : s.Cached hs) (key : Bytes32) :
    verify hs s.root key (s.get key) (s.prove hs key) = true := by
  rw [verify, h.computeRoot_prove, Function.update_eq_self, h.root, decide_eq_true_iff]

/-- And it carries any update. -/
theorem Cached.apply_prove (h : s.Cached hs) (key : Bytes32) (new : Option UInt32) :
    apply hs s.root key (s.get key) new (s.prove hs key) =
      some (mapRoot hs (Function.update s.get key new)) := by
  rw [apply, if_neg (not_not.mpr (h.verify_prove key)), h.computeRoot_prove]

/-- Entries with keys of their own are what the tree built from them maps to. -/
theorem get_foldl_insert {entries : List (Bytes32 × UInt32)} (h : s.Cached hs)
    (hnodup : (entries.map Prod.fst).Nodup) (hzero : ∀ e ∈ entries, e.2 ≠ 0) (k : Bytes32) :
    (entries.foldl (fun t e => t.insert hs e.1 e.2) s).get k =
      ((entries.find? fun e => e.1 = k).map Prod.snd).or (s.get k) := by
  induction entries generalizing s with
  | nil => rfl
  | cons e entries ih =>
    obtain ⟨hget, hcached⟩ := h.insert e.1 e.2
    obtain ⟨hnew, hnodup⟩ := List.nodup_cons.mp hnodup
    rw [List.foldl_cons, ih hcached hnodup fun e he => hzero e (List.mem_cons_of_mem _ he), hget,
      if_neg (hzero e List.mem_cons_self)]
    by_cases hk : e.1 = k
    · subst hk
      have hnone : entries.find? (fun e' => e'.1 = e.1) = none := by
        refine List.find?_eq_none.mpr fun e' he' heq => hnew ?_
        exact List.mem_map.mpr ⟨e', he', of_decide_eq_true heq⟩
      rw [hnone, List.find?_cons_of_pos (by simp), Function.update_self]
      rfl
    · rw [List.find?_cons_of_neg (by simpa using hk), Function.update_of_ne (Ne.symm hk)]

/-- Every map without zero counts is the map of a tree. -/
theorem leaves_fromEntries {M : SortedMap Bytes32 UInt32} (hM : ∀ k, M.get? k ≠ some 0) :
    (Smt.fromEntries hs M.entries).leaves = M := by
  refine SortedMap.ext_get? fun k => ?_
  have hzero : ∀ e ∈ M.entries, e.2 ≠ 0 := fun e he h0 =>
    hM e.1 ((SortedMap.mem_entries.mp he).trans (congrArg some h0))
  have hget := get_foldl_insert (cached_new : (Smt.new hs).Cached hs) M.nodup_keys hzero k
  exact hget.trans (Option.or_none)

/-- **The proof primitives decide exactly the map**, whatever the proof, and the tree's own proofs
    are accepted. -/
theorem proofs_decide (hnode : MerkleForest.PairInjective (hashNode hs))
    (hleaf : ∀ k v k' v', hashLeaf hs k v = hashLeaf hs k' v' → k = k' ∧ v = v')
    (hempty : ∀ k v, hashLeaf hs k v ≠ hs.zero) (M : SortedMap Bytes32 UInt32)
    (hM : ∀ k, M.get? k ≠ some 0) (key : Bytes32) :
    (∀ v proof, verify hs (treeRoot hs M) key v proof = true → v = M.get? key) ∧
      (∀ old new proof r, new ≠ some 0 →
        apply hs (treeRoot hs M) key old new proof = some r →
          old = M.get? key ∧ r = treeRoot hs (setCount M key new)) ∧
      (Smt.fromEntries hs M.entries).leaves = M ∧
      ∀ ops, (run hs ops).leaves = M →
        (run hs ops).root = treeRoot hs M ∧
          verify hs (treeRoot hs M) key (M.get? key) ((run hs ops).prove hs key) = true ∧
          ∀ new, new ≠ some 0 →
            apply hs (treeRoot hs M) key (M.get? key) new ((run hs ops).prove hs key) =
              some (Smt.fromEntries hs (setCount M key new).entries).root := by
  have hslot := slotInjective hleaf hempty
  refine ⟨fun v proof h => ?_, fun old new proof r _ h => ?_, leaves_fromEntries hM,
    fun ops hops => ?_⟩
  · rw [treeRoot_eq] at h
    exact verify_sound hnode hslot h
  · rw [treeRoot_eq] at h
    rw [treeRoot_eq, get?_setCount]
    exact apply_sound hnode hslot h
  · have h : (run hs ops).Cached hs := cached_run ops
    have hget : (run hs ops).get = M.get? := congrArg SortedMap.get? hops
    have hroot : (run hs ops).root = treeRoot hs M := by rw [h.root, treeRoot_eq, hget]
    refine ⟨hroot, hget ▸ hroot ▸ h.verify_prove key, fun new hnew => ?_⟩
    have hnonzero : ∀ k, (setCount M key new).get? k ≠ some 0 := by
      rw [get?_setCount]
      exact update_ne_zero hM key hnew
    have hrebuilt : (Smt.fromEntries hs (setCount M key new).entries).root =
        mapRoot hs (setCount M key new).get? := by
      rw [(cached_fromEntries _).root, get, leaves_fromEntries hnonzero]
    rw [← hroot, ← hget, h.apply_prove, hrebuilt, get?_setCount, hget]

/-- The ideal hash tells leaves apart, -/
theorem idealHashing_hashLeaf_inj (k : Bytes32) (v : UInt32) (k' : Bytes32) (v' : UInt32)
    (h : hashLeaf idealHashing k v = hashLeaf idealHashing k' v') : k = k' ∧ v = v' := by
  obtain ⟨hk, hv⟩ := bytes32_append_inj (List.cons.inj h).2
  exact ⟨hk, le32_injective hv⟩

/-- nodes too, -/
theorem idealHashing_pairInjective : NodeInjective idealHashing := fun _ _ _ _ h =>
  Hashing.bytes_append_bytes_inj (idealHashing_tagInjective TAG_SMT_NODE h)

/-- and the values of a key. -/
theorem idealHashing_slotInjective : SlotInjective idealHashing :=
  slotInjective idealHashing_hashLeaf_inj fun _ _ => List.cons_ne_nil _ _

/-- Three unspent outputs of one coinbase, one of another. -/
def twoCoinbases : SortedMap Bytes32 UInt32 :=
  (SortedMap.empty.insert (.replicate 32 0) 3).insert (.replicate 32 1) 1

theorem twoCoinbases_ne_zero (k : Bytes32) : twoCoinbases.get? k ≠ some 0 := by
  have hthree : ∀ l, (SortedMap.empty.insert (.replicate 32 0) 3 : SortedMap Bytes32 UInt32).get? l
      ≠ some 0 := by
    rw [SortedMap.get?_insert]
    exact update_ne_zero (fun _ => by simp) _ (by decide)
  rw [twoCoinbases, SortedMap.get?_insert]
  exact update_ne_zero hthree _ (by decide) k

theorem proofs_decide_twoCoinbases :
    (∀ v proof, verify idealHashing (treeRoot idealHashing twoCoinbases) (.replicate 32 0) v proof
        = true → v = some 3) ∧
      (∀ v proof, verify idealHashing (treeRoot idealHashing twoCoinbases) (.replicate 32 2) v proof
        = true → v = none) := by
  have h := fun key => proofs_decide idealHashing_pairInjective idealHashing_hashLeaf_inj
    (fun _ _ => List.cons_ne_nil _ _) twoCoinbases twoCoinbases_ne_zero key
  have hthree : twoCoinbases.get? (.replicate 32 0) = some 3 := by decide
  have hnone : twoCoinbases.get? (.replicate 32 2) = none := by decide
  exact ⟨fun v proof hv => ((h _).1 v proof hv).trans hthree,
    fun v proof hv => ((h _).1 v proof hv).trans hnone⟩

end Smt
end Hazync
