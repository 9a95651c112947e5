import Hazync.Lib.Runs
import Hazync.Lib.SortedMap
import Hazync.Smt.Keys

/-!
# The full coinbase SMT (`coinbase-smt/src/lib.rs`)

The host holds every leaf, and caches the inner nodes of the upper `CACHE_DEPTH` levels. An update
writes one leaf and recomputes the nodes on its path: from the leaves up to the cached region,
from the cached siblings above it. `rootNaive` and `proveNaive` are the from-scratch reference.

What the state of the tree means is one predicate, `Cached`: the cache holds the node under each
name unless it is an empty subtree's, the root is the root of the map, and no count is zero. Every
update keeps it (`Cached.insert`, `Cached.remove`), so it holds after any history, and with it
everything the tree answers is a function of its map alone.

## One path

A tree of 256 levels cannot be stored, and need not be. Nearly all subtrees are empty, and the root
of an empty one depends on its height only. The host keeps the leaves in order, which makes every
subtree an interval of the list; so any inner node can be computed from the leaves below it by
splitting the interval at each level (`Below.subtreeLoop_eq`). This is fast for deep nodes, which
have few leaves below them, and slow near the root. So the nodes of the upper levels are stored.

An update changes one leaf, and so the nodes on one path. Below the stored levels the new node is
computed from the leaves; above, from the stored sibling. The invariant during the loop is that
everything stored is right but for the names on the path that have not been reached (`CachedBut`).

A node is stored under its depth and its path written as a masked key. The node of an empty subtree
is not stored: an absent entry is read as empty. So there must be no entry for an empty subtree, if
the stored nodes are to be determined by the map, and `put` takes care of that.
-/

namespace Hazync

open ByteStrings SparseTree

/-- The tree: its leaves, the nodes that are stored, and the root. -/
structure Smt (H : Type) where
  leaves : SortedMap Bytes32 UInt32
  /-- By depth and masked key. An absent entry is an empty subtree. -/
  nodes : ℕ × Bytes32 → Option H
  root : H

namespace Smt

variable {H : Type} (hs : Hashing H)

/-- Depth above which interior nodes are cached. -/
def CACHE_DEPTH : ℕ := 20

/-- The empty tree. -/
def new : Smt H := ⟨.empty, fun _ => none, emptyRoot hs⟩

/-- The count of a coinbase, if it has any output left. -/
def get (s : Smt H) : Counts := s.leaves.get?

/-- The leaves under a prefix, in key order. -/
def under (s : Smt H) (pre : Bytes32) (depth : ℕ) : List (Bytes32 × UInt32) :=
  s.leaves.range (mask pre depth) (fill (mask pre depth) depth)

/-- `subtree` at depth `DEPTH - h`. -/
def subtreeLoop : ℕ → List (Bytes32 × UInt32) → H
  | h, [] => emptyHash hs h
  | 0, item :: _ => hashLeaf hs item.1 item.2
  | h + 1, item :: items =>
    let split := SortedMap.partitionPoint (fun e => !bit e.1 (DEPTH - (h + 1))) (item :: items)
    let l := subtreeLoop h ((item :: items).take split)
    let r := subtreeLoop h ((item :: items).drop split)
    hashNode hs l r

/-- Root of the subtree at `depth` covering exactly `items`. -/
def subtree (items : List (Bytes32 × UInt32)) (depth : ℕ) : H :=
  subtreeLoop hs (DEPTH - depth) items

/-- The cached sibling of the child of `key` at depth `d + 1`. -/
def siblingCached (s : Smt H) (key : Bytes32) (d : ℕ) : H :=
  (s.nodes (d + 1, flipBit (mask key (d + 1)) d)).getD (emptyHash hs (DEPTH - (d + 1)))

/-- The sibling of the child of `key` at depth `d + 1`, from the cache or from the leaves. -/
def siblingAt (s : Smt H) (key : Bytes32) (d : ℕ) : H :=
  if d + 1 ≤ CACHE_DEPTH then s.siblingCached hs key d
  else
    let sp := flipBit (mask key (d + 1)) d
    subtree hs (s.under sp (d + 1)) (d + 1)

/-- The root from scratch. -/
def rootNaive (s : Smt H) : H := subtree hs s.leaves.entries 0

section

variable [DecidableEq H]

/-- What the cache holds for a node: nothing for an empty subtree's. -/
def cacheEntry (depth : ℕ) (h : H) : Option H :=
  if h = emptyHash hs (DEPTH - depth) then none else some h

/-- Store a cached node, or drop it when it is an empty subtree's. -/
def put (s : Smt H) (depth : ℕ) (pre : Bytes32) (h : H) : Smt H :=
  { s with nodes := Function.update s.nodes (depth, pre) (cacheEntry hs depth h) }

/-- The loop of `recompute_path` over the depths below `d`, downwards, from the node at `d`. -/
def recomputeLoop (key : Bytes32) : ℕ → Smt H → H → Smt H
  | 0, s, cur => { s with root := cur }
  | d + 1, s, cur =>
    let sib := s.siblingCached hs key d
    let cur := if bit key d then hashNode hs sib cur else hashNode hs cur sib
    let s := if d > 0 then s.put hs d (mask key d) cur else s
    recomputeLoop key d s cur

/-- Recompute every cached node on the path of `key`, and the root. -/
def recomputePath (s : Smt H) (key : Bytes32) : Smt H :=
  let items := s.under key CACHE_DEPTH
  let cur := subtree hs items CACHE_DEPTH
  (s.put hs CACHE_DEPTH (mask key CACHE_DEPTH) cur).recomputeLoop hs key CACHE_DEPTH cur

/-- A count of zero is the same as none. -/
def insert (s : Smt H) (key : Bytes32) (value : UInt32) : Smt H :=
  let s := if value = 0 then { s with leaves := s.leaves.erase key }
    else { s with leaves := s.leaves.insert key value }
  s.recomputePath hs key

/-- The coinbase is taken out. -/
def remove (s : Smt H) (key : Bytes32) : Smt H :=
  recomputePath hs { s with leaves := s.leaves.erase key } key

/-- The tree of a list of counts, built one by one. -/
def fromEntries (entries : List (Bytes32 × UInt32)) : Smt H :=
  entries.foldl (fun t e => t.insert hs e.1 e.2) (new hs)

/-- What `prove` does with one sibling: the empty ones are left out. -/
def Proof.push (proof : Proof H) (d : ℕ) (sib : H) : Proof H :=
  if sib ≠ emptyHash hs (DEPTH - 1 - d) then ⟨setBit proof.bitmap d, proof.siblings ++ [sib]⟩
  else proof

/-- No sibling yet. -/
def Proof.nil : Proof H := ⟨List.Vector.replicate 32 0, []⟩

/-- Inclusion proof if `key` is present, non-inclusion proof if not. -/
def prove (s : Smt H) (key : Bytes32) : Proof H :=
  (List.range DEPTH).foldl (fun proof d => proof.push hs d (s.siblingAt hs key d)) .nil

/-- `items[lo..hi]`. -/
def window (items : List (Bytes32 × UInt32)) (lo hi : ℕ) : List (Bytes32 × UInt32) :=
  (items.take hi).drop lo

/-- One level of `prove_naive`: the proof so far and the bounds of the leaves below the path. -/
def proveNaiveStep (items : List (Bytes32 × UInt32)) (key : Bytes32)
    (acc : Proof H × ℕ × ℕ) (d : ℕ) : Proof H × ℕ × ℕ :=
  let (proof, lo, hi) := acc
  let split := lo + SortedMap.partitionPoint (fun e => !bit e.1 d) (window items lo hi)
  let (mine, theirs) :=
    if bit key d then ((split, hi), (lo, split)) else ((lo, split), (split, hi))
  let sib := subtree hs (window items theirs.1 theirs.2) (d + 1)
  (proof.push hs d sib, mine.1, mine.2)

/-- The proof from scratch. -/
def proveNaive (s : Smt H) (key : Bytes32) : Proof H :=
  let items := s.leaves.entries
  ((List.range DEPTH).foldl (proveNaiveStep hs items key) (.nil, 0, items.length)).1

end

/-! ## The tree behind the state -/

/-- The slots of the tree of a map. -/
noncomputable def slots (m : Counts) : List Bool → H :=
  Function.extend (path DEPTH) (fun k => slot hs k (m k)) fun _ => emptyHash hs 0

/-- The root of the subtree under a path. -/
noncomputable def region (m : Counts) (p : List Bool) : H :=
  SparseTree.root (hashNode hs) (slots hs m) (DEPTH - p.length) p

variable {hs} {m : Counts} {p : List Bool} {d : ℕ} {key k : Bytes32}

/-- The slot of a key. -/
theorem slots_path (m : Counts) (k : Bytes32) : slots hs m (path DEPTH k) = slot hs k (m k) :=
  path_injective.extend_apply _ _ _

/-- At the bottom a subtree is a slot. -/
theorem region_path (m : Counts) (k : Bytes32) :
    region hs m (path DEPTH k) = slot hs k (m k) := by
  rw [region, length_path, Nat.sub_self, SparseTree.root, slots_path]

/-- A subtree from its two halves. -/
theorem region_split (hp : p.length < DEPTH) (b : Bool) :
    region hs m p = join (hashNode hs) b (region hs m (p ++ [b])) (region hs m (p ++ [!b])) := by
  have hheight : DEPTH - p.length = DEPTH - (p.length + 1) + 1 := by omega
  rw [region, region, region, List.length_append, List.length_append, List.length_singleton,
    List.length_singleton, hheight, root_eq_join _ _ _ b]

/-- Along the path of a key. -/
theorem region_path_split (hd : d < DEPTH) (m : Counts) (key : Bytes32) :
    region hs m (path d key) = join (hashNode hs) (bit key d) (region hs m (path (d + 1) key))
      (region hs m (path d key ++ [!bit key d])) := by
  rw [path_succ]
  exact region_split (by rwa [length_path]) _

/-- A subtree depends on the keys below it only. -/
theorem region_congr {m' : Counts} (h : ∀ k, p <+: path DEPTH k → m k = m' k) :
    region hs m p = region hs m' p := by
  refine root_congr fun q _ => ?_
  by_cases hk : ∃ k, path DEPTH k = p ++ q
  · obtain ⟨k, hk⟩ := hk
    rw [← hk, slots_path, slots_path, h k (hk ▸ List.prefix_append p q)]
  · rw [slots, slots, Function.extend_apply' _ _ _ hk, Function.extend_apply' _ _ _ hk]

/-- A tree with empty slots only. -/
theorem root_empty (h : ℕ) (p : List Bool) :
    SparseTree.root (hashNode hs) (fun _ => emptyHash hs 0) h p = emptyHash hs h := by
  induction h generalizing p with
  | zero => rfl
  | succ h ih => rw [SparseTree.root, ih, ih, emptyHash]

/-- Without counts all slots are empty. -/
theorem slots_none : slots hs (fun _ => none) = fun _ => emptyHash hs 0 := by
  funext q
  by_cases hk : ∃ k, path DEPTH k = q
  · obtain ⟨k, rfl⟩ := hk
    exact slots_path _ k
  · exact Function.extend_apply' _ _ _ hk

/-- A subtree without keys has the root of the empty one. -/
theorem region_empty (h : ∀ k, p <+: path DEPTH k → m k = none) :
    region hs m p = emptyHash hs (DEPTH - p.length) := by
  rw [region_congr h, region, slots_none, root_empty]

/-- A key is below a node where its path begins with the node's. -/
theorem prefix_iff (hp : p.length ≤ DEPTH) : p <+: path DEPTH k ↔ path p.length k = p := by
  have htake : (path DEPTH k).take p.length = path p.length k := by
    rw [path, path, ← List.map_take, List.take_range, Nat.min_eq_left hp]
  rw [List.prefix_iff_eq_take, htake, eq_comm]

/-- The same for a node on the path of another key. -/
theorem prefix_path_iff (hd : d ≤ DEPTH) :
    path d key <+: path DEPTH k ↔ path d k = path d key := by
  rw [prefix_iff (by rwa [length_path]), length_path]

/-- Changing the count of `key` leaves the subtrees off its path alone. -/
theorem region_of_ne {m' : Counts} (hm : ∀ l, l ≠ key → m' l = m l) (hd : d ≤ DEPTH)
    (h : path d k ≠ path d key) : region hs m' (path d k) = region hs m (path d k) := by
  refine region_congr fun l hl => hm l ?_
  rintro rfl
  exact h ((prefix_path_iff hd).mp hl).symm

/-! ## From-scratch subtrees -/

/-- `items` are the entries of `m` below the path `p`, by increasing key. -/
structure Below (m : Counts) (p : List Bool) (items : List (Bytes32 × UInt32)) : Prop where
  sorted : items.Pairwise fun a b => a.1 < b.1
  mem : ∀ e, e ∈ items ↔ m e.1 = some e.2 ∧ p <+: path DEPTH e.1

/-- A key is below one of the two halves. -/
theorem prefix_concat_iff (hp : p.length < DEPTH) {b : Bool} :
    p ++ [b] <+: path DEPTH k ↔ p <+: path DEPTH k ∧ bit k p.length = b := by
  have hconcat : (p ++ [b]).length = p.length + 1 := List.length_append
  rw [prefix_iff (by omega), prefix_iff hp.le, hconcat, path_succ,
    List.append_singleton_inj]

/-- The entries below one of the halves. -/
theorem Below.filter {items : List (Bytes32 × UInt32)} (h : Below m p items)
    (hp : p.length < DEPTH) {b : Bool} {t : Bytes32 × UInt32 → Bool}
    (ht : ∀ e, t e = true ↔ bit e.1 p.length = b) : Below m (p ++ [b]) (items.filter t) where
  sorted := h.sorted.filter _
  mem e := by rw [List.mem_filter, h.mem, ht, prefix_concat_iff hp, and_assoc]

/-- The leaves that go left come before those that go right. -/
theorem Below.split {items : List (Bytes32 × UInt32)} (h : Below m p items)
    (hp : p.length < DEPTH) :
    let split := SortedMap.partitionPoint (fun e => !bit e.1 p.length) items
    Below m (p ++ [false]) (items.take split) ∧ Below m (p ++ [true]) (items.drop split) := by
  have hpart : items.Pairwise fun a b =>
      (!bit b.1 p.length) = true → (!bit a.1 p.length) = true := by
    refine h.sorted.imp_of_mem fun {a b} ha hb hlt hbit => ?_
    have hpa := (prefix_iff hp.le).mp ((h.mem a).mp ha).2
    have hpb := (prefix_iff hp.le).mp ((h.mem b).mp hb).2
    cases hbita : bit a.1 p.length with
    | false => rfl
    | true =>
      rw [Bool.not_eq_true'] at hbit
      exact absurd hlt (lt_of_bit hp (hpb.trans hpa.symm) hbit hbita).not_gt
  obtain ⟨htake, hdrop⟩ := SortedMap.split_partitionPoint hpart
  dsimp only
  rw [htake, hdrop]
  exact ⟨h.filter hp fun e => by rw [Bool.not_eq_true'],
    h.filter hp fun e => by rw [Bool.not_not]⟩

/-- Without entries a subtree is empty. -/
theorem Below.region_eq_empty (h : Below m p []) :
    region hs m p = emptyHash hs (DEPTH - p.length) := by
  refine region_empty fun k hk => Option.eq_none_iff_forall_ne_some.mpr fun v hv => ?_
  cases (h.mem (k, v)).mpr ⟨hv, hk⟩

/-- The recursion over the leaves below a node computes the node. -/
theorem Below.subtreeLoop_eq {items : List (Bytes32 × UInt32)} {h : ℕ} (hb : Below m p items)
    (hp : p.length + h = DEPTH) : subtreeLoop hs h items = region hs m p := by
  induction h generalizing items p with
  | zero =>
    cases items with
    | nil =>
      rw [hb.region_eq_empty, subtreeLoop, ← hp, Nat.add_zero, Nat.sub_self]
    | cons e items =>
      obtain ⟨he, hpe⟩ := (hb.mem e).mp List.mem_cons_self
      rw [Nat.add_zero] at hp
      rw [prefix_iff hp.le, hp] at hpe
      rw [subtreeLoop, ← hpe, region_path, he]
      rfl
  | succ h ih =>
    cases items with
    | nil =>
      rw [hb.region_eq_empty, subtreeLoop, ← hp, Nat.add_sub_cancel_left]
    | cons e items =>
      obtain ⟨hl, hr⟩ := hb.split (by omega)
      have hdepth : DEPTH - (h + 1) = p.length := by omega
      have hlen : ∀ b, (p ++ [b]).length + h = DEPTH := by
        intro b
        rw [List.length_append, List.length_singleton]
        omega
      have hsplit := @region_split _ hs m p (by omega) false
      rw [subtreeLoop, hdepth, ih hl (hlen _), ih hr (hlen _), hsplit]
      rfl

/-- All entries are below the root. -/
theorem below_entries (s : Smt H) : Below s.get [] s.leaves.entries where
  sorted := s.leaves.sorted
  mem e := by rw [SortedMap.mem_entries, get, and_iff_left List.nil_prefix]

/-- The interval of a node holds the entries below it. -/
theorem below_under (s : Smt H) (hd : d ≤ DEPTH) (k : Bytes32) :
    Below s.get (path d k) (s.under k d) where
  sorted := s.leaves.sorted.filter _
  mem e := by
    rw [under, SortedMap.range, List.mem_filter, SortedMap.mem_entries, get, decide_eq_true_iff,
      mem_range_iff hd, prefix_path_iff hd]

/-- So the node is computed from it. -/
theorem subtree_under (s : Smt H) (hd : d ≤ DEPTH) (k : Bytes32) :
    subtree hs (s.under k d) d = region hs s.get (path d k) :=
  (s.below_under hd k).subtreeLoop_eq (by rw [length_path]; omega)

/-- The root from scratch is that of the map. -/
theorem rootNaive_eq (s : Smt H) : s.rootNaive hs = mapRoot hs s.get :=
  s.below_entries.subtreeLoop_eq rfl

/-! ## The cache -/

variable [DecidableEq H]

variable (hs) in
/-- The cache entry a map calls for under a name. -/
noncomputable def node (m : Counts) (d : ℕ) (pre : Bytes32) : Option H :=
  if 1 ≤ d ∧ d ≤ CACHE_DEPTH ∧ mask pre d = pre then
    cacheEntry hs d (region hs m (path d pre))
  else none

variable (hs) in
/-- What the state of the tree means. -/
structure Cached (s : Smt H) : Prop where
  /-- The stored nodes are those of the full tree over the entries. -/
  nodes : ∀ d pre, s.nodes (d, pre) = node hs s.get d pre
  root : s.root = mapRoot hs s.get
  /-- An entry is deleted and never counts zero. -/
  nonzero : ∀ k, s.get k ≠ some 0

variable (hs) in
/-- The cache is right but for the names on the path of `key` above depth `d`. -/
def CachedBut (s : Smt H) (key : Bytes32) (d : ℕ) : Prop :=
  ∀ d' pre, ¬ (1 ≤ d' ∧ d' < d ∧ pre = mask key d') → s.nodes (d', pre) = node hs s.get d' pre

/-- The stored levels are among those of the tree. -/
theorem cacheDepth_le : CACHE_DEPTH ≤ DEPTH := by decide

/-- What is read of a node that was stored, or was not. -/
theorem getD_cacheEntry (d : ℕ) (h : H) :
    (cacheEntry hs d h).getD (emptyHash hs (DEPTH - d)) = h := by
  rw [cacheEntry]
  split
  · rename_i heq
    exact heq.symm
  · rfl

/-- A cached sibling is the sibling subtree. -/
theorem siblingCached_eq {s : Smt H} (hd : d < CACHE_DEPTH)
    (hnode : s.nodes (d + 1, flipBit (mask key (d + 1)) d) =
      node hs s.get (d + 1) (flipBit (mask key (d + 1)) d)) :
    s.siblingCached hs key d = region hs s.get (path d key ++ [!bit key d]) := by
  rw [siblingCached, hnode, node, if_pos ⟨Nat.succ_pos d, hd, mask_flipBit d key⟩,
    getD_cacheEntry, path_flipBit (hd.trans_le cacheDepth_le)]

/-- One more name on the path is right. -/
theorem CachedBut.put {s : Smt H} (h : s.CachedBut hs key (d + 1)) (hd : 1 ≤ d)
    (hd' : d ≤ CACHE_DEPTH) :
    (s.put hs d (mask key d) (region hs s.get (path d key))).CachedBut hs key d := by
  intro d' pre hnot
  have hdepth : d ≤ DEPTH := hd'.trans cacheDepth_le
  change Function.update s.nodes _ _ (d', pre) = node hs s.get d' pre
  by_cases heq : (d', pre) = (d, mask key d)
  · obtain ⟨rfl, rfl⟩ := Prod.mk.inj heq
    rw [Function.update_self, node, if_pos ⟨hd, hd', mask_mask hdepth key⟩, path_mask hdepth]
  · rw [Function.update_of_ne heq]
    refine h d' pre fun hstale => ?_
    obtain ⟨h1, hlt, rfl⟩ := hstale
    rcases Nat.lt_succ_iff_lt_or_eq.mp hlt with hlt | rfl
    · exact hnot ⟨h1, hlt, rfl⟩
    · exact heq rfl

/-- The loop brings the root and the names on the path up to date. -/
theorem recomputeLoop_spec {s : Smt H} (h : s.CachedBut hs key d) (hd : d ≤ CACHE_DEPTH) :
    let s' := s.recomputeLoop hs key d (region hs s.get (path d key))
    s'.leaves = s.leaves ∧ s'.root = mapRoot hs s.get ∧
      ∀ d' pre, s'.nodes (d', pre) = node hs s.get d' pre := by
  induction d generalizing s with
  | zero =>
    refine ⟨rfl, rfl, fun d' pre => h d' pre ?_⟩
    rintro ⟨-, hlt, -⟩
    exact absurd hlt (Nat.not_lt_zero d')
  | succ d ih =>
    have hdepth : d < DEPTH := lt_of_lt_of_le hd cacheDepth_le
    have hsib : s.siblingCached hs key d = region hs s.get (path d key ++ [!bit key d]) :=
      siblingCached_eq hd (h _ _ fun hstale => absurd hstale.2.1 (Nat.lt_irrefl _))
    have hcur : (if bit key d then
          hashNode hs (s.siblingCached hs key d) (region hs s.get (path (d + 1) key))
        else hashNode hs (region hs s.get (path (d + 1) key)) (s.siblingCached hs key d)) =
        region hs s.get (path d key) := by
      rw [hsib, region_path_split hdepth]
      rfl
    rw [recomputeLoop]
    dsimp only
    rw [hcur]
    by_cases hpos : d > 0
    · rw [if_pos hpos]
      exact ih (h.put hpos (Nat.le_of_succ_le hd)) (Nat.le_of_succ_le hd)
    · rw [if_neg hpos]
      refine ih (fun d' pre hnot => h d' pre fun hstale => ?_) (Nat.le_of_succ_le hd)
      omega

/-- **One path is enough**: where a state's cache is right for a map that differs at `key` only,
    recomputing the path of `key` makes it right for the state's own leaves. -/
theorem cached_recomputePath {s : Smt H} (hnodes : ∀ d pre, s.nodes (d, pre) = node hs m d pre)
    (hm : ∀ k, k ≠ key → s.get k = m k) (hzero : ∀ k, s.get k ≠ some 0) :
    (s.recomputePath hs key).leaves = s.leaves ∧ (s.recomputePath hs key).Cached hs := by
  have hbut : s.CachedBut hs key (CACHE_DEPTH + 1) := by
    intro d pre hnot
    rw [hnodes, node, node]
    by_cases hname : 1 ≤ d ∧ d ≤ CACHE_DEPTH ∧ mask pre d = pre
    · obtain ⟨h1, hd, hpre⟩ := hname
      have hdepth := hd.trans cacheDepth_le
      have hoff : path d pre ≠ path d key := by
        intro hpath
        exact hnot ⟨h1, Nat.lt_succ_of_le hd, hpre.symm.trans ((mask_eq_iff hdepth).mpr hpath)⟩
      rw [region_of_ne hm hdepth hoff]
    · rw [if_neg hname, if_neg hname]
  have hput := hbut.put (by decide) le_rfl
  obtain ⟨hleaves, hroot, hcache⟩ := recomputeLoop_spec hput le_rfl
  rw [recomputePath, subtree_under s cacheDepth_le]
  have hget : s.get = Smt.get _ := congrArg SortedMap.get? hleaves.symm
  refine ⟨hleaves, fun d pre => ?_, ?_, fun k => ?_⟩
  · exact (hcache d pre).trans (congrArg (node hs · d pre) hget)
  · exact hroot.trans (congrArg (mapRoot hs) hget)
  · exact hget ▸ hzero k

/-- The empty tree. -/
theorem cached_new : (new hs).Cached hs where
  nodes d pre := by
    rw [node]
    split
    · have hempty : region hs (new hs).get (path d pre) = emptyHash hs (DEPTH - d) :=
        (region_empty fun _ _ => rfl).trans (by rw [length_path])
      rw [hempty, cacheEntry, if_pos rfl]
      rfl
    · rfl
  root := (region_empty (p := []) fun _ _ => rfl).symm
  nonzero k := nofun

/-- A count that is set is not zero. -/
theorem update_ne_zero (hzero : ∀ k, m k ≠ some 0) (key : Bytes32) {value : Option UInt32}
    (hvalue : value ≠ some 0) (k : Bytes32) : Function.update m key value k ≠ some 0 := by
  by_cases hk : k = key
  · subst hk
    rwa [Function.update_self]
  · rw [Function.update_of_ne hk]
    exact hzero k

/-- Any write of one leaf, with the path recomputed. -/
theorem Cached.write {s : Smt H} (h : s.Cached hs) (key : Bytes32) {value : Option UInt32}
    {leaves : SortedMap Bytes32 UInt32} (hleaves : leaves.get? = Function.update s.get key value)
    (hvalue : value ≠ some 0) :
    let s' := recomputePath hs { s with leaves := leaves } key
    s'.get = Function.update s.get key value ∧ s'.Cached hs := by
  obtain ⟨hsame, hcached⟩ := cached_recomputePath (s := { s with leaves := leaves }) h.nodes
    (fun k hk => (congrFun hleaves k).trans (Function.update_of_ne hk _ _))
    (fun k => (congrFun hleaves k).trans_ne (update_ne_zero h.nonzero key hvalue k))
  exact ⟨(congrArg SortedMap.get? hsame).trans hleaves, hcached⟩

/-- Taking a coinbase out. -/
theorem Cached.remove {s : Smt H} (h : s.Cached hs) (key : Bytes32) :
    (s.remove hs key).get = Function.update s.get key none ∧ (s.remove hs key).Cached hs :=
  h.write key (SortedMap.get?_erase _ _) nofun

/-- Setting a count. -/
theorem Cached.insert {s : Smt H} (h : s.Cached hs) (key : Bytes32) (value : UInt32) :
    (s.insert hs key value).get =
      Function.update s.get key (if value = 0 then none else some value) ∧
      (s.insert hs key value).Cached hs := by
  rw [Smt.insert]
  by_cases hvalue : value = 0
  · rw [if_pos hvalue, if_pos hvalue]
    exact h.write key (SortedMap.get?_erase _ _) nofun
  · rw [if_neg hvalue, if_neg hvalue]
    exact h.write key (SortedMap.get?_insert _ _ _) fun hzero => hvalue (Option.some.inj hzero)

end Smt
end Hazync
