import Hazync.Bridge.Bundle
import Hazync.Bridge.FollowRuns

/-!
# The files of the bridge (`cmd_bridge`, `prover/host/src/main.rs`)

After a block the bridge writes the block's record, removes the records that are too old, writes the
bundle and, every so often, a checkpoint and beside it the hash of the block that it stands on. A
rewind removes the records and the bundles of the blocks that it takes back, and then writes a
checkpoint. Each of these is one operation on one file, and between any two of them the process may
be killed. What is started in its place has the files and nothing else.

## What can go wrong, and where

A turn says which answer the node gives, which removals the file system refuses, whether the label
can be written and, if the process is killed at this turn, after how many of its operations. So a
run has all interleavings of kills with writes: a kill before the first operation, between a record
and its bundle, between a checkpoint and its label.

The loop in memory is `Hazync.Bridge.Follow`, unchanged: `follower` forgets the files and `went`
puts them back. What is proved about the loop is used as it is, and only the files are new.
-/

namespace Hazync
namespace Bridge

open Guest (BlockWitness Boundary Core)

variable {H : Type}

/-! ## Files -/

/-- What a process leaves behind. -/
structure Files (H : Type) where
  /-- `undo/{h}.undo` -/
  undo : UndoDir H
  /-- `bundle_{h}.json`. `none` is one that the guest cannot hold. -/
  bundles : SortedMap ℕ (Option (Boundary H × BlockWitness H))
  /-- `state.bin`. The list is no part of the file: it is what was held below when it was saved. -/
  state : Option (Standing H × List (Held H × Block))
  /-- `state.head` -/
  head : Option (UInt32 × String)

def Files.empty : Files H := ⟨.empty, .empty, none, none⟩

/-- One operation. What is written is there as a whole or not at all: it is renamed into place. -/
inductive FileOp (H : Type)
  | putUndo (u : BlockUndo H)
  | dropUndo (height : ℕ)
  | putBundle (height : ℕ) (bundle : Option (Boundary H × BlockWitness H))
  | dropBundle (height : ℕ)
  | putState (s : Standing H) (below : List (Held H × Block))
  | putHead (height : UInt32) (hash : String)

def FileOp.run (files : Files H) : FileOp H → Files H
  | .putUndo u => { files with undo := files.undo.insert u.height.toNat u }
  | .dropUndo height => { files with undo := files.undo.erase height }
  | .putBundle height bundle => { files with bundles := files.bundles.insert height bundle }
  | .dropBundle height => { files with bundles := files.bundles.erase height }
  | .putState s below => { files with state := some (s, below) }
  | .putHead height hash => { files with head := some (height, hash) }

def Files.run (files : Files H) (ops : List (FileOp H)) : Files H := ops.foldl FileOp.run files

/-! ## The process and its files -/

/-- `HAZYNC_BRIDGE_EMIT_FROM` and `HAZYNC_BRIDGE_CKPT` beside what the loop follows. -/
structure WriteSettings extends Settings where
  emitFrom : UInt32
  ckptEvery : UInt32

/-- The bridge from one call to the next. The trail is no part of it (`Process`). -/
structure Service (H : Type) where
  now : Standing H
  trail : List (Held H × Block)
  head : Option String
  halted : Bool
  phase : Phase
  lastCkpt : UInt32
  files : Files H

/-- A call, what the file system does with what follows from it, and after how many operations the
    process is killed, where it is. A panic kills it as well. -/
structure Turn where
  call : Call
  /-- The bundles that a rewind fails to remove. -/
  stuckBundle : ℕ → Bool
  /-- `state.head` can be written. -/
  noted : Bool
  killed : Option ℕ

namespace Service

/-- The loop of it, without what it writes. -/
def follower (b : Service H) : Follower H :=
  ⟨⟨b.now, b.files.undo, b.files.state.map Prod.fst, b.trail⟩, b.head, b.halted, b.phase⟩

/-- The blocks that the accumulator has absorbed. -/
def applied (b : Service H) : List Block := b.trail.map Prod.snd

/-- The records that `bridge_push_undo` removes, beside those that stay as they cannot be. -/
def pruned (undo : UndoDir H) (u : BlockUndo H) (keep : UInt32) (o : Outcome) : List ℕ :=
  let undo := if o.written then undo.insert u.height.toNat u else undo
  if u.height > keep then
    (undo.entries.map Prod.fst).filter fun h => h < (u.height - keep).toNat ∧ o.stuck h = false
  else []

variable [DecidableEq H] (hs : Hashing H) (core : Core) (ser : Serializer) (cfg : WriteSettings)

/-- What is found at a start: the checkpoint, and the hash beside it if it is of that height.
    Without a checkpoint the bridge is at genesis. The blocks below are kept in the model beside the
    state only, to say which chain it is the replay of. -/
def start (files : Files H) : Service H :=
  let now := files.state.elim (.genesis hs) fun ckpt => ckpt.1.resumed hs
  let head := files.head.bind fun named =>
    if named.2.length = 64 ∧ named.1 = now.done then some named.2 else none
  ⟨now, files.state.elim [] Prod.snd, head, false, .top, now.done, files⟩

/-- What is written before a checkpoint, where the loop goes on as `f`. After a block these are its
    record, the removals of old records and its bundle; after a rewind, the removals of the records
    and the bundles above. -/
def edits (b : Service H) (t : Turn) (f : Follower H) : List (FileOp H) :=
  match b.phase with
  | .fetch _ =>
    match t.call.chain[b.now.done.toNat]? with
    | none => []
    | some block =>
      match b.now.advance hs core (displayHash (block.hash hs)) block with
      | none => []
      | some (_, u) =>
        (if t.call.outcome.written then [.putUndo u] else []) ++
          ((pruned b.files.undo u cfg.undoKeep t.call.outcome).map .dropUndo ++
            if cfg.emitFrom ≤ u.height then
              [.putBundle u.height.toNat (b.now.bundle hs core ser block)]
            else [])
  | .search _ _ _ =>
    -- it is a rewind that leaves the bridge at a lower height, and nothing else
    if f.done < b.now.done then
      let heights := heightsAbove f.done b.now.done
      (heights.reverse.filter fun h => t.call.stuck h = false).map .dropUndo ++
        (heights.filter fun h => t.stuckBundle h = false).map .dropBundle
    else []
  | _ => []

/-- Whether there is a checkpoint: after so many blocks, at the end of a pass, after a rewind. -/
def saves (b : Service H) (f : Follower H) : Bool :=
  match b.phase with
  | .fetch target =>
    cfg.ckptEvery ≤ f.done - b.lastCkpt ∨ (¬ f.done < target ∧ b.lastCkpt < f.done)
  | .search _ _ _ => f.done < b.now.done
  | _ => false

/-- `bridge_save_state`, and `bridge_save_head` after it -/
def checkpoint (b : Service H) (t : Turn) (f : Follower H) : List (FileOp H) :=
  if b.saves cfg f then
    .putState f.process.now f.process.trail ::
      f.head.elim [] fun hash => if t.noted then [.putHead f.done hash] else []
  else []

def writes (b : Service H) (t : Turn) (f : Follower H) : List (FileOp H) :=
  b.edits hs core ser cfg t f ++ b.checkpoint cfg t f

/-- Where the loop goes on as `f`. -/
def went (b : Service H) (t : Turn) (f : Follower H) : Service H where
  now := f.process.now
  trail := f.process.trail
  head := f.head
  halted := f.halted
  phase := f.phase
  lastCkpt := if b.saves cfg f then f.done else b.lastCkpt
  files := b.files.run (b.writes hs core ser cfg t f)

/-- One turn. A process that is not killed and does not panic goes on; any other leaves its files,
    up to the operation it was killed after, to one that is started on them. -/
def step (b : Service H) (t : Turn) : Option (Service H) :=
  let next := b.follower.step hs core cfg.toSettings t.call
  match t.killed with
  | none => next.map (b.went hs core ser cfg t)
  | some k =>
    let ops := next.elim [] (b.writes hs core ser cfg t)
    some (start hs (b.files.run (ops.take k)))

/-- The runs of the bridge from an empty directory on, with what kills it on the way. -/
def Follows : List (Service H × Turn × Service H) → Service H → Prop :=
  Runs.Run (· = start hs .empty) fun b t b' =>
    Linked hs t.call.chain ∧ b.step hs core ser cfg t = some b'

end Service

end Bridge
end Hazync
