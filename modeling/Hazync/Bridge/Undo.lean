import Hazync.Bridge.Walk
import Hazync.Lib.Runs

/-!
# The bridge's way back (`bridge_push_undo`, `bridge_rewind_to`, `prover/host/src/main.rs`)

Beside what it holds, the bridge keeps a file for each of its last blocks: what takes that block
back. A rewind first asks for every file it needs, and then goes back a block at a time, newest
first. What is written and removed here the bridge does not wait for, so an `Outcome` says how the
file system took it. Between two blocks the process may end, and what starts in its place goes on
from the last checkpoint, with the files that are there.

## Failures that are not waited for

A record is written after its block has been applied, and a failure to write it is logged only. A
record that is too old, or that has been undone, is removed, and it may stay. So the directory may
have fewer records than blocks, and records of blocks that are gone. The rewind asks for every
record it needs before it touches anything: where one is missing it refuses and changes nothing.

`Process` adds the checkpoint. A restart loses what is in memory and keeps the directory; and since
a process may end in the middle of its removals, a restart may find some of the records gone that
were about to be removed (`Event.restart`).
-/

namespace Hazync
namespace Bridge

open ByteStrings
open Accumulator (Forest ForestOp)
open Guest (Core GENESIS_BITS GENESIS_TIME)

variable {H : Type}

/-- What the bridge holds, with the last header's `nbits` and `time` and its period's start. -/
structure Standing (H : Type) extends Resident H where
  nbits : UInt32
  time : UInt32
  epochStart : UInt32

/-- `BlockUndo`. Its `UndoForestOp` is `ForestOp` by another name. -/
structure BlockUndo (H : Type) where
  height : UInt32
  blockHash : String
  forestOps : List (ForestOp H)
  utxoSpent : List (Outpoint × Unspent)
  utxoCreated : List Outpoint
  smtPrior : List (Bytes32 × Option UInt32)
  prevWin : List UInt32
  prevNbits : UInt32
  prevTime : UInt32
  prevEpochStart : UInt32

/-- `{dir}/undo`: the records that can be read, each by the height in its file's name. -/
abbrev UndoDir (H : Type) := SortedMap ℕ (BlockUndo H)

/-- How the file system took the write of a record and the removals after it. -/
structure Outcome where
  written : Bool
  /-- The files that were to go and stayed. -/
  stuck : ℕ → Bool

/-- `bridge_push_undo`: the record is written, where it can be, and those more than `keep` below it
    are removed, where they can be. -/
def pushUndo (dir : UndoDir H) (u : BlockUndo H) (keep : UInt32) (o : Outcome) : UndoDir H :=
  let dir := if o.written then dir.insert u.height.toNat u else dir
  if u.height > keep then
    let cutoff := u.height - keep
    dir.eraseAll ((dir.entries.map Prod.fst).filter fun h => h < cutoff.toNat ∧ o.stuck h = false)
  else dir

/-- `bridge_undo_floor` -/
def undoFloor (dir : UndoDir H) : Option ℕ := (dir.entries.map Prod.fst).head?

/-- `(target + 1)..=done`, in ascending order. -/
def heightsAbove (target done : UInt32) : List ℕ :=
  List.range' (target.toNat + 1) (done.toNat - target.toNat)

/-- `{:?}` of what `bridge_undo_floor` returns. -/
def debugFloor : Option ℕ → String
  | none => "None"
  | some h => "Some(" ++ toString h ++ ")"

/-- The two refusals of a rewind. -/
def notBelow (target done : UInt32) : String :=
  "rewind target " ++ toString target ++ " is not below the current height " ++ toString done

def noUndo (dir : UndoDir H) (target : UInt32) (h : ℕ) : String :=
  "no undo for height " ++ toString h ++ ": the rewind window reaches back to " ++
    debugFloor (undoFloor dir) ++ ", and " ++ toString target ++
    " is beyond it — the state must be rebuilt from a checkpoint below the fork"

variable [DecidableEq H] (hs : Hashing H)

/-- One round of the rewind's second loop. `none` is a panic. The forest's operations are inverted,
    the created coins are taken out and the spent ones put back, the tree's entries and the window
    go back, and then the record is removed. -/
def unwind (stuck : ℕ → Bool) (acc : Standing H × UndoDir H) (h : ℕ) :
    Option (Standing H × UndoDir H) := do
  let (s, dir) := acc
  let u ← dir.get? h
  let forest ← s.forest.undoOps hs.parent u.forestOps
  some
    ({ s with
        forest := forest
        utxo := undoUtxo s.utxo ⟨u.utxoSpent, u.utxoCreated⟩
        smt := undoPrior hs s.smt u.smtPrior
        win := u.prevWin
        blockMtp := s.blockMtp.dropLast
        done := UInt32.ofNat (h - 1)
        nbits := u.prevNbits
        time := u.prevTime
        epochStart := u.prevEpochStart },
      if stuck h then dir else dir.erase h)

/-- `bridge_rewind_to`: what it returns, and what it leaves. `none` is a panic. The first loop looks
    for every record, the second one undoes block by block from the top. -/
def rewindTo (dir : UndoDir H) (target : UInt32) (s : Standing H) (stuck : ℕ → Bool) :
    Option (Except String Unit × Standing H × UndoDir H) :=
  if target ≥ s.done then some (.error (notBelow target s.done), s, dir)
  else
    match (heightsAbove target s.done).find? fun h => (dir.get? h).isNone with
    | some h => some (.error (noUndo dir target h), s, dir)
    | none => do
      let (s, dir) ← (heightsAbove target s.done).reverse.foldlM (unwind hs stuck) (s, dir)
      some (.ok (), s, dir)

/-- Where there is no checkpoint. -/
def Standing.genesis : Standing H where
  toResident := .genesis hs
  nbits := GENESIS_BITS
  time := GENESIS_TIME
  epochStart := GENESIS_TIME

/-- What a checkpoint of it is started again as. -/
def Standing.resumed (s : Standing H) : Standing H where
  toResident := s.toResident.save.resume hs
  nbits := s.nbits
  time := s.time
  epochStart := s.epochStart

/-- One round of `for h in (done + 1)..=target`, with the record of it. -/
def Standing.advance (core : Core) (s : Standing H) (hash : String) (block : Block) :
    Option (Standing H × BlockUndo H) :=
  if s.done = 0xffffffff then none
  else do
    let h := s.done + 1
    let (win, blockMtp) ← pushMtp s.win s.blockMtp block.time
    let w ← buildBlockCarried hs core s.utxo blockMtp h block s.forest.beginJournal
    let coinbase ← block.txdata.head?
    let nout := (coinbase.vout.filter fun o => outSpendable o.scriptPubKey).length
    let (_, smtPrior, smt) ← smtAdvance hs s.smt (core.getHash coinbase) (UInt32.ofNat nout)
      (block.coinbaseSpends s.utxo) (h = 91842 ∨ h = 91880)
    let (utxo, delta) := updateUtxo core s.utxo block h
    some
      ({ forest := w.forest.takeJournal
         utxo := utxo
         win := win
         blockMtp := blockMtp
         done := h
         smt := smt
         nbits := block.bits
         time := block.time
         epochStart := if h % 2016 = 0 then block.time else s.epochStart },
       { height := h
         blockHash := hash
         forestOps := w.forest.journalOps
         utxoSpent := delta.removed
         utxoCreated := delta.created
         smtPrior := smtPrior
         prevWin := s.win
         prevNbits := s.nbits
         prevTime := s.time
         prevEpochStart := s.epochStart })

/-! ## The process -/

/-- What a rewind is to put back. -/
structure Held (H : Type) where
  leaves : List H
  utxo : Utxo
  smt : Smt H
  win : List UInt32
  blockMtp : List UInt32
  nbits : UInt32
  time : UInt32
  epochStart : UInt32

def Standing.held (s : Standing H) : Held H where
  leaves := s.forest.leaves
  utxo := s.utxo
  smt := s.smt
  win := s.win
  blockMtp := s.blockMtp
  nbits := s.nbits
  time := s.time
  epochStart := s.epochStart

/-- The bridge, its files, and its last checkpoint. `trail` is no part of it: it is what was held at
    each height below, when the walk stood there, and the block that was taken next. -/
structure Process (H : Type) where
  now : Standing H
  dir : UndoDir H
  saved : Option (Standing H)
  trail : List (Held H × Block)

def Process.start : Process H := ⟨.genesis hs, .empty, none, []⟩

/-- What happens to the process from one block to the next. -/
inductive Event
  | advance (hash : String) (block : Block) (o : Outcome)
  | save
  | rewind (target : UInt32) (stuck : ℕ → Bool)
  /-- The process ends, with files gone that it was about to remove, and another one starts. -/
  | restart (lost : ℕ → Bool)

/-- A rewind that is done is saved; one that is refused leaves all as it is. -/
def Process.step (core : Core) (keep : UInt32) (p : Process H) : Event → Option (Process H)
  | .advance hash block o => do
    let (now, u) ← p.now.advance hs core hash block
    some { p with
      now := now
      dir := pushUndo p.dir u keep o
      trail := p.trail ++ [(p.now.held, block)] }
  | .save => some { p with saved := some p.now }
  | .rewind target stuck => do
    let (r, now, dir) ← rewindTo hs p.dir target p.now stuck
    match r with
    | .ok _ => some ⟨now, dir, some now, p.trail.take target.toNat⟩
    | .error _ => some { p with now := now, dir := dir }
  | .restart lost =>
    let now := p.saved.elim (.genesis hs) (·.resumed hs)
    some { p with
      now := now
      dir := p.dir.eraseAll ((p.dir.entries.map Prod.fst).filter lost)
      trail := p.trail.take now.done.toNat }

end Bridge
end Hazync
