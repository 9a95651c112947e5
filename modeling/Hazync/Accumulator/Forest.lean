import Mathlib.Data.List.DropRight
import Mathlib.Logic.Function.Basic
import Hazync.Accumulator.Reference

/-!
# The bridge's accumulator (`accumulator::Forest`)

Every leaf, the cached levels above them, the position index, and the journal. `internals[k]` is
level `k + 1`; a loop over the levels is a recursion along `internals` that carries the level
below. The two hash maps are their lookup functions, and a position is stored in them as a `u32`.
`none` is a panic; the reads of the loops that their own guards keep in range carry that guard.

The functions stand in the order of the source and keep its names. Where the source takes `&mut
self` the function returns the forest, and where a loop runs over an index the recursion is on the
list that the index runs over. The loop that truncates the levels and the final pops are functions
here, `truncateLevels` and `popEmpty`, since three operations end with them.

Two things are kept although no caller of a well kept forest meets them. `asU32` wraps, so an index
of more than `2^32` leaves is wrong in the model as it is in the source; and `delete` and
`undo_delete` read the leaf at their argument before anything else, so an argument out of range is a
panic and not a no-op. What the operations do to a *kept* forest is in
`Hazync.Accumulator.ForestCache` and `Hazync.Accumulator.ForestJournal`; nothing is proved here.
-/

namespace Hazync
namespace Accumulator

variable {H : Type}

/-- One mutation of the forest, recorded so it can be inverted. -/
inductive ForestOp (H : Type)
  | added
  | deleted (pos : ℕ) (leaf : H)

@[ext]
structure Forest (H : Type) where
  leaves : List H
  journal : Option (List (ForestOp H))
  internals : List (List H)
  /-- leaf -> its first position -/
  index : H → Option ℕ
  /-- leaf -> its other positions, ascending -/
  dups : H → Option (List ℕ)

/-- `pos as u32` -/
def asU32 (pos : ℕ) : ℕ := pos % 2 ^ 32

/-- `v.insert(v.partition_point(|&p| p < pos), pos)` -/
def insertAscending (v : List ℕ) (pos : ℕ) : List ℕ :=
  v.insertIdx (v.takeWhile (· < pos)).length pos

/-- `if let Ok(at) = v.binary_search(&pos) { v.remove(at) }`. On an ascending `v` it does not
    matter which of several equal entries the search finds. -/
def removeAscending (v : List ℕ) (pos : ℕ) : List ℕ :=
  match v.idxOf? pos with
  | some i => v.eraseIdx i
  | none => v

/-- `parent(&level[pair], &level[pair + 1])`, where the guard of the loop has the pair in range. -/
def parentAt (parent : H → H → H) (level : List H) (pair : ℕ) (h : pair + 1 < level.length) : H :=
  parent level[pair] level[pair + 1]

namespace Forest

/-- `Forest::new()` -/
def new : Forest H :=
  { leaves := [], journal := none, internals := [], index := fun _ => none, dups := fun _ => none }

/-- `find`: smallest position holding `leaf`. It reads `index` alone; that `index` holds the
    smallest one is the invariant of `Hazync.Accumulator.PositionIndex`. -/
def find (F : Forest H) (leaf : H) : Option ℕ := F.index leaf

section Index

variable [DecidableEq H]

def setIndex (F : Forest H) (leaf : H) (pos : Option ℕ) : Forest H :=
  { F with index := Function.update F.index leaf pos }

def setDups (F : Forest H) (leaf : H) (v : Option (List ℕ)) : Forest H :=
  { F with dups := Function.update F.dups leaf v }

def indexInsert (F : Forest H) (leaf : H) (pos : ℕ) : Forest H :=
  let pos := asU32 pos
  match F.index leaf with
  | none => F.setIndex leaf (some pos)
  | some first =>
    let v := (F.dups leaf).getD []
    if pos < first then
      (F.setIndex leaf (some pos)).setDups leaf (some (insertAscending v first))
    else F.setDups leaf (some (insertAscending v pos))

def indexRemove (F : Forest H) (leaf : H) (pos : ℕ) : Forest H :=
  let pos := asU32 pos
  match F.index leaf with
  | none => F
  | some first =>
    if first = pos then
      -- promote the next-smallest copy, if this leaf has one
      match F.dups leaf with
      | some (next :: v) =>
        let F := if v.isEmpty then F.setDups leaf none else F.setDups leaf (some v)
        F.setIndex leaf (some next)
      | _ => (F.setDups leaf none).setIndex leaf none
    else
      match F.dups leaf with
      | none => F
      | some v =>
        let v := removeAscending v pos
        if v.isEmpty then F.setDups leaf none else F.setDups leaf (some v)

end Index

/-- `while below.len() > 1 { up = chunks_exact(2).map(parent); push up }` -/
def buildLevels (parent : H → H → H) (below : List H) : List (List H) :=
  if 1 < below.length then
    let up := MerkleForest.pairUp parent below
    if up.isEmpty then [] else up :: buildLevels parent up
  else []
termination_by below.length
decreasing_by rw [MerkleForest.length_pairUp]; omega

/-- `match index.entry(leaf)`: a first sighting is vacant, a later one goes to `dups`. -/
def sighting [DecidableEq H] (m : (H → Option ℕ) × (H → Option (List ℕ))) (leaf : H) (i : ℕ) :
    (H → Option ℕ) × (H → Option (List ℕ)) :=
  match m.1 leaf with
  | none => (Function.update m.1 leaf (some (asU32 i)), m.2)
  | some _ => (m.1, Function.update m.2 leaf (some ((m.2 leaf).getD [] ++ [asU32 i])))

/-- The index loop of `from_leaves`. -/
def fromLeavesIndex [DecidableEq H] (leaves : List H) : (H → Option ℕ) × (H → Option (List ℕ)) :=
  leaves.zipIdx.foldl (fun m l => sighting m l.1 l.2) (fun _ => none, fun _ => none)

def fromLeaves [DecidableEq H] (parent : H → H → H) (leaves : List H) : Forest H :=
  { leaves := leaves, journal := none, internals := buildLevels parent leaves,
    index := (fromLeavesIndex leaves).1, dups := (fromLeavesIndex leaves).2 }

/-- Tree level `k`; reading past the last cached level panics. -/
def level (F : Forest H) (k : ℕ) : Option (List H) :=
  if k = 0 then some F.leaves else F.internals[k - 1]?

def levelLen (F : Forest H) (k : ℕ) : ℕ :=
  if k = 0 then F.leaves.length else (F.internals[k - 1]?).elim 0 List.length

/-! ## The loops over the levels -/

/-- The carry loop of `add`: `while level_len(k) % 2 == 0 && level_len(k) > 0`. Past the last
    cached level it starts a new one, whose single node stops it. -/
def completePairs (parent : H → H → H) (below : List H) : List (List H) → List (List H)
  | [] =>
    if h : below.length % 2 = 0 ∧ 0 < below.length then
      [[parentAt parent below (below.length - 2) (by omega)]]
    else []
  | up :: rest =>
    if h : below.length % 2 = 0 ∧ 0 < below.length then
      let up := up ++ [parentAt parent below (below.length - 2) (by omega)]
      up :: completePairs parent up rest
    else up :: rest

/-- The carry loop of `undo_delete`, which overwrites where the parent is already there. -/
def restorePairs (parent : H → H → H) (below : List H) : List (List H) → List (List H)
  | [] =>
    if h : below.length % 2 = 0 ∧ 0 < below.length then
      [[parentAt parent below (below.length - 2) (by omega)]]
    else []
  | up :: rest =>
    if h : below.length % 2 = 0 ∧ 0 < below.length then
      let par := parentAt parent below (below.length - 2) (by omega)
      let up := if up.length < below.length / 2 then up ++ [par]
        else up.set (below.length / 2 - 1) par
      up :: restorePairs parent up rest
    else up :: rest

/-- `for k in 0..internals.len() { internals[k].truncate(level_len(k) / 2) }` -/
def truncateLevels (below : List H) : List (List H) → List (List H)
  | [] => []
  | up :: rest =>
    let up := up.take (below.length / 2)
    up :: truncateLevels up rest

/-- `while internals.last().is_some_and(|v| v.is_empty()) { internals.pop() }` -/
def popEmpty (internals : List (List H)) : List (List H) :=
  internals.rdropWhile List.isEmpty

/-- The loop of `repair` from a level on; `2 * (idx / 2)` is `idx & !1`. -/
def repairLevels (parent : H → H → H) (below : List H) (idx : ℕ) :
    List (List H) → List (List H)
  | [] => []
  | up :: rest =>
    if h : 2 * (idx / 2) + 1 < below.length then
      if idx / 2 < up.length then
        let up := up.set (idx / 2) (parentAt parent below (2 * (idx / 2)) h)
        up :: repairLevels parent up (idx / 2) rest
      else up :: rest
    else up :: rest

def repair (parent : H → H → H) (F : Forest H) (i : ℕ) : Forest H :=
  { F with internals := repairLevels parent F.leaves i F.internals }

/-! ## The operations -/

/-- `if let Some(j) = self.journal.as_mut() { j.push(op) }` -/
def record (F : Forest H) (op : ForestOp H) : Forest H :=
  { F with journal := F.journal.map (· ++ [op]) }

/-- `begin_journal`; the journal it returns is `F.journal`. -/
def beginJournal (F : Forest H) : Forest H := { F with journal := some [] }

/-- What `take_journal` returns. -/
def journalOps (F : Forest H) : List (ForestOp H) := F.journal.getD []

/-- What `take_journal` leaves. -/
def takeJournal (F : Forest H) : Forest H := { F with journal := none }

variable [DecidableEq H] (parent : H → H → H)

def add (F : Forest H) (leaf : H) : Forest H :=
  let F := F.record .added
  let F := F.indexInsert leaf F.leaves.length
  let F := { F with leaves := F.leaves ++ [leaf] }
  { F with internals := completePairs parent F.leaves F.internals }

/-- `undo_add`: the leaf it took off, if there was one, and the forest it leaves. -/
def undoAdd (F : Forest H) : Option H × Forest H :=
  match F.leaves.getLast? with
  | none => (none, F)
  | some leaf =>
    let pos := F.leaves.length - 1
    let F := { F with leaves := F.leaves.dropLast }
    let F := F.indexRemove leaf pos
    (some leaf, { F with internals := popEmpty (truncateLevels F.leaves F.internals) })

/-- `undo_delete`: the inverse of a swap-and-shrink. The leaf that stands at `i` is the one that the
    delete had moved there, so it goes back to the end; where `i` is the end already, nothing had
    been moved. -/
def undoDelete (F : Forest H) (i : ℕ) (gone : H) : Option (Forest H) := do
  let last := F.leaves.length
  let F ← if i = last then
      let F := F.indexInsert gone i
      some { F with leaves := F.leaves ++ [gone] }
    else do
      let moved ← F.leaves[i]?
      let F := F.indexRemove moved i
      let F := { F with leaves := F.leaves.set i gone }
      let F := F.indexInsert gone i
      let F := F.indexInsert moved last
      some { F with leaves := F.leaves ++ [moved] }
  let F := { F with internals := restorePairs parent F.leaves F.internals }
  some (F.repair parent i)

/-- `delete`: the leaf at `i` is taken out and the last one put in its place. The maps are brought
    up to date in the order of the source: the gone leaf first, then the moved one, which leaves the
    maps out of step with the leaves in between. Only the ancestors of `i` are recomputed. -/
def delete (F : Forest H) (i : ℕ) : Option (Forest H) := do
  let last := F.leaves.length - 1
  let gone ← F.leaves[i]?
  let F := F.record (.deleted i gone)
  let moved ← F.leaves.getLast?
  let F := { F with leaves := F.leaves.dropLast }
  let F := F.indexRemove gone i
  let F := if i ≠ last then (F.indexRemove moved last).indexInsert moved i else F
  let F := { F with internals := popEmpty (truncateLevels F.leaves F.internals) }
  if i ≠ last then some (repair parent { F with leaves := F.leaves.set i moved } i) else some F

def undoOp (F : Forest H) : ForestOp H → Option (Forest H)
  | .added => some (F.undoAdd).2
  | .deleted pos leaf => F.undoDelete parent pos leaf

/-- `undo_ops`: newest first, and with the recording off from then on. -/
def undoOps (F : Forest H) (ops : List (ForestOp H)) : Option (Forest H) :=
  ops.reverse.foldlM (undoOp parent) F.takeJournal

/-- `trees()`; the same loop as `reference::naive_trees`. -/
def trees (F : Forest H) : List (ℕ × ℕ) := treesLoop F.leaves.length 64 0

/-- `level(height)[offset >> height]` -/
def subtreeRoot (F : Forest H) (offset height : ℕ) : Option H := do
  let l ← F.level height
  l[offset >>> height]?

def roots (F : Forest H) : Option (List (Option H)) :=
  fillRoots F.subtreeRoot F.trees (emptyRoots F.leaves.length)

/-- `prove`: the path of one leaf in its own tree, read off the cached levels. The sibling of a node
    is at its index with the lowest bit turned. -/
def prove (F : Forest H) (index : ℕ) : Option (Proof H) := do
  let (offset, height) ← F.trees.find?
    (fun t : ℕ × ℕ => t.1 ≤ index ∧ index < t.1 + 2 ^ t.2)
  let loc := index - offset
  let siblings ← (List.range height).mapM fun k => do
    let l ← F.level k
    l[(index >>> k) ^^^ 1]?
  let leaf ← F.leaves[index]?
  some { leaf := leaf, position := UInt64.ofNat loc, siblings := siblings }

/-! ## Histories -/

/-- The operations of a forest's public interface. -/
inductive Op (H : Type)
  | add (leaf : H)
  | delete (i : ℕ)
  | undoAdd
  | undoDelete (i : ℕ) (gone : H)
  | undoOps (ops : List (ForestOp H))
  | beginJournal
  | takeJournal

def step (F : Forest H) : Op H → Option (Forest H)
  | .add leaf => some (F.add parent leaf)
  | .delete i => F.delete parent i
  | .undoAdd => some (F.undoAdd).2
  | .undoDelete i gone => F.undoDelete parent i gone
  | .undoOps ops => F.undoOps parent ops
  | .beginJournal => some F.beginJournal
  | .takeJournal => some F.takeJournal

def run (F : Forest H) (ops : List (Op H)) : Option (Forest H) := ops.foldlM (step parent) F

end Forest
end Accumulator
end Hazync
